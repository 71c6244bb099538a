import WireTree.Proofs.ErrorPlaces
import WireTree.Proofs.ValueSequences

/-!
# Walks that are driven directly

A walk may be asked for one value after the other, also after failures, and with a header that
nobody has checked.

* `Walk.call m s` is the answer of an action, with the state that it leaves.
* `Walk.session b o h depths whole s` are the answers to reading values, each at a depth of its own,
  and to reading the root value behind them if `whole` says so.
* `place?` is the place that an answer points at, if it is an error that has one.
* `Walk.Moves bytes stop pos pos' places c`: what happened between two positions. The cursor `c`
  stands at `pos'`, not before `pos` and not behind the last byte of the window unless it was, and
  the places that errors have pointed at lie between the two, none before an earlier one.

An unchecked header may declare less than its own size. The window then starts past its stop, and
every call fails where the header ends.

Results:
* `Walk.moves_valueAt`, `Walk.moves_root`: what one call does.
* `Walk.moves_session`: what all calls do, put together by `Walk.Moves.trans`.
* **`session_sound`**: wherever a session has come to, it has kept inside the region.
-/

namespace WireTree

open Cursor (window)

variable {σ ν α : Type}

/-- The place that an answer points at. -/
def place? : Except DecodeError α → Option Nat
  | .ok _ => none
  | .error e => e.offset?

/-- A window may as well be said to stop at its last byte. -/
theorem Cursor.window_min (bytes : List UInt8) (start stop : Nat) :
    window bytes start (min stop bytes.length) = window bytes start stop := by
  simp only [window, Nat.min_assoc, Nat.min_self]

namespace Walk

/-! ## Calls -/

/-- The answer of an action, and the state that it leaves. -/
def call (m : Walk σ α) (s : State σ) : Except DecodeError α × State σ :=
  match m s with
  | .ok x after => (.ok x, after)
  | .error e after => (.error e, after)

/-- The answers to reading one value after the other, whether they fail or not, and to reading the
root value at the end if that is wanted. -/
def session (b : Builder σ ν) (o : Options) (h : Header) (depths : List UInt64) (whole : Bool)
    (s : State σ) : List (Except DecodeError ν) × State σ :=
  let done := readings b o depths s
  if whole then
    let last := call (root b o h) done.2
    (done.1 ++ [last.1], last.2)
  else done

theorem readings_cons (b : Builder σ ν) (o : Options) (depth : UInt64) (depths : List UInt64)
    (s : State σ) :
    readings b o (depth :: depths) s =
      ((call (valueAt b o depth) s).1 :: (readings b o depths (call (valueAt b o depth) s).2).1,
        (readings b o depths (call (valueAt b o depth) s).2).2) := by
  rw [readings, call]
  cases valueAt b o depth s <;> rfl

theorem readings_append (b : Builder σ ν) (o : Options) (depths more : List UInt64) (s : State σ) :
    readings b o (depths ++ more) s =
      ((readings b o depths s).1 ++ (readings b o more (readings b o depths s).2).1,
        (readings b o more (readings b o depths s).2).2) := by
  induction depths generalizing s with
  | nil => rfl
  | cons depth depths ih =>
    rw [List.cons_append, readings_cons, readings_cons, ih, List.cons_append]

/-- A session can be cut behind any value. -/
theorem session_append (b : Builder σ ν) (o : Options) (h : Header) (depths more : List UInt64)
    (whole : Bool) (s : State σ) :
    session b o h (depths ++ more) whole s =
      ((readings b o depths s).1 ++ (session b o h more whole (readings b o depths s).2).1,
        (session b o h more whole (readings b o depths s).2).2) := by
  unfold session
  rw [readings_append]
  cases whole with
  | false => rfl
  | true => simp only [if_true, List.append_assoc]

/-! ## Movements -/

/-- What has happened from `pos` to `pos'`, where the cursor is now, and the places that errors have
pointed at meanwhile. -/
structure Moves (bytes : List UInt8) (stop pos pos' : Nat) (places : List Nat) (c : Cursor) :
    Prop where
  cursor : c = window bytes pos' stop
  le : pos ≤ pos'
  le_max : pos' ≤ max pos (min stop bytes.length)
  between : ∀ place ∈ places, pos ≤ place ∧ place ≤ pos'
  sorted : places.Pairwise (· ≤ ·)

section
variable {bytes : List UInt8} {stop pos pos' pos'' : Nat} {places places' : List Nat}
  {c c' : Cursor}

theorem Moves.rest (bytes : List UInt8) (stop pos : Nat) :
    Moves bytes stop pos pos [] (window bytes pos stop) :=
  ⟨rfl, Nat.le_refl _, Nat.le_max_left .., nofun, .nil⟩

theorem Moves.trans (h : Moves bytes stop pos pos' places c)
    (h' : Moves bytes stop pos' pos'' places' c') :
    Moves bytes stop pos pos'' (places ++ places') c' where
  cursor := h'.cursor
  le := Nat.le_trans h.le h'.le
  le_max := by
    have := h.le_max
    have := h'.le_max
    omega
  between := by
    have hle := h.le
    have hle' := h'.le
    intro place hplace
    obtain hplace | hplace := List.mem_append.1 hplace
    · have := h.between place hplace
      omega
    · have := h'.between place hplace
      omega
  sorted := by
    refine List.pairwise_append.2 ⟨h.sorted, h'.sorted, fun place hplace place' hplace' => ?_⟩
    exact Nat.le_trans (h.between place hplace).2 (h'.between place' hplace').1

/-- One answer points at one place at most. -/
theorem Moves.of_place {place? : Option Nat} (hle : pos ≤ pos')
    (hmax : pos' ≤ max pos (min stop bytes.length))
    (hplace : ∀ place ∈ place?, pos ≤ place ∧ place ≤ pos') :
    Moves bytes stop pos pos' place?.toList (window bytes pos' stop) where
  cursor := rfl
  le := hle
  le_max := hmax
  between := fun place h => hplace place (Option.mem_toList.1 h)
  sorted := by
    cases place? with
    | none => exact .nil
    | some place => exact List.pairwise_singleton ..

theorem Moves.of_ends {o : Options} {m : Walk σ α} {s : σ}
    (h : Ends o bytes (min stop bytes.length) pos (m ⟨window bytes pos stop, s⟩)) :
    ∃ pos', Moves bytes stop pos pos' (place? (call m ⟨window bytes pos stop, s⟩).1).toList
      (call m ⟨window bytes pos stop, s⟩).2.cursor := by
  unfold call
  generalize m ⟨window bytes pos stop, s⟩ = result at h
  cases h with
  | @ok x s' pos' hlow hhigh =>
    have hmax := Nat.le_trans hhigh (Nat.le_max_right pos _)
    rw [Cursor.window_min]
    exact ⟨pos', .of_place hlow hmax fun _ hplace => nomatch hplace⟩
  | @error e s' place pos' hplace hlow hbehind hhigh =>
    have hmax := Nat.le_trans hhigh (Nat.le_max_right pos _)
    rw [Cursor.window_min]
    refine ⟨pos', .of_place (Nat.le_trans hlow hbehind) hmax fun place' hplace' => ?_⟩
    cases hplace.symm.trans hplace'
    exact ⟨hlow, hbehind⟩
  | @stopped s' pos' hlow hhigh =>
    have hmax := Nat.le_trans hhigh (Nat.le_max_right pos _)
    rw [Cursor.window_min]
    exact ⟨pos', .of_place hlow hmax fun _ hplace => nomatch hplace⟩

end

/-! ## One call -/

/-- At the end of its window a walk finds no value, wherever that is. -/
theorem valueAt_of_atEnd (b : Builder σ ν) (o : Options) (depth : UInt64) {s : State σ}
    (h : s.cursor.atEnd = true) :
    valueAt b o depth s = .error (.truncated s.cursor.pos) s := by
  rw [valueAt_eq_node, node_eq, Cursor.rest_eq_nil_of_atEnd h]

section
variable (b : Builder σ ν) (o : Options) {bytes : List UInt8} {stop pos : Nat}
  (hpos : headerSize ≤ pos)
include hpos

/-- Reading a value is honest inside the region, and fails at once behind it. -/
theorem moves_valueAt (depth : UInt64) (s : σ) :
    ∃ pos', Moves bytes stop pos pos'
      (place? (call (valueAt b o depth) ⟨window bytes pos stop, s⟩).1).toList
      (call (valueAt b o depth) ⟨window bytes pos stop, s⟩).2.cursor := by
  by_cases hle : pos ≤ min stop bytes.length
  · have hhonest := honest_valueAt (o := o) (Nat.min_le_right ..) b depth pos hpos hle s
    rw [Cursor.window_min] at hhonest
    exact Moves.of_ends hhonest
  · have hend : (window bytes pos stop).atEnd = true :=
      decide_eq_true (Nat.le_of_lt (Nat.lt_of_not_le hle))
    have hvalue : valueAt b o depth ⟨window bytes pos stop, s⟩ = _ :=
      valueAt_of_atEnd b o depth hend
    rw [call, hvalue]
    refine ⟨pos, .of_place (Nat.le_refl _) (Nat.le_max_left ..) fun place hplace => ?_⟩
    cases hplace
    exact ⟨Nat.le_refl _, Nat.le_refl _⟩

/-- What is left behind the root value is no place. -/
theorem moves_root (h : Header) (s : σ) :
    ∃ pos', Moves bytes stop pos pos'
      (place? (call (root b o h) ⟨window bytes pos stop, s⟩).1).toList
      (call (root b o h) ⟨window bytes pos stop, s⟩).2.cursor := by
  obtain ⟨pos', hmoves⟩ := moves_valueAt b o hpos 0 s
  refine ⟨pos', ?_⟩
  unfold call at hmoves ⊢
  rw [root_eq]
  cases hvalue : valueAt b o 0 ⟨window bytes pos stop, s⟩ with
  | error e after =>
    rw [hvalue] at hmoves
    exact hmoves
  | ok node after =>
    rw [hvalue] at hmoves
    cases hfull : o.exactSize && after.cursor.remaining != 0 with
    | false =>
      simp only [hfull, Bool.false_eq_true, if_false]
      exact hmoves
    | true =>
      simp only [hfull, if_true]
      exact hmoves

/-! ## Sessions -/

/-- Values in a row: the places behind the first call are not before it. -/
theorem moves_readings (depths : List UInt64) (s : σ) :
    ∃ pos', Moves bytes stop pos pos'
      ((readings b o depths ⟨window bytes pos stop, s⟩).1.filterMap place?)
      (readings b o depths ⟨window bytes pos stop, s⟩).2.cursor := by
  induction depths generalizing pos s with
  | nil => exact ⟨pos, .rest ..⟩
  | cons depth depths ih =>
    obtain ⟨next, hfirst⟩ := moves_valueAt b o hpos depth s
    rw [readings_cons]
    generalize call (valueAt b o depth) ⟨window bytes pos stop, s⟩ = first at hfirst ⊢
    obtain ⟨answer, ⟨c, s'⟩⟩ := first
    obtain rfl : c = window bytes next stop := hfirst.cursor
    obtain ⟨pos', hrest⟩ := ih (Nat.le_trans hpos hfirst.le) s'
    refine ⟨pos', ?_⟩
    have hplaces : ∀ rest : List (Except DecodeError ν),
        (answer :: rest).filterMap place? = (place? answer).toList ++ rest.filterMap place? := by
      intro rest
      rw [List.filterMap_cons]
      cases place? answer <;> rfl
    rw [hplaces]
    exact hfirst.trans hrest

/-- **All calls of a session move on**, the root value at the end included. -/
theorem moves_session (h : Header) (depths : List UInt64) (whole : Bool) (s : σ) :
    ∃ pos', Moves bytes stop pos pos'
      ((session b o h depths whole ⟨window bytes pos stop, s⟩).1.filterMap place?)
      (session b o h depths whole ⟨window bytes pos stop, s⟩).2.cursor := by
  obtain ⟨next, hreadings⟩ := moves_readings b o hpos depths s
  unfold session
  generalize readings b o depths ⟨window bytes pos stop, s⟩ = result at hreadings ⊢
  obtain ⟨answers, ⟨c, s'⟩⟩ := result
  obtain rfl : c = window bytes next stop := hreadings.cursor
  cases whole with
  | false => exact ⟨next, hreadings⟩
  | true =>
    obtain ⟨pos', hroot⟩ := moves_root b o (Nat.le_trans hpos hreadings.le) h s'
    refine ⟨pos', ?_⟩
    have hplaces : ∀ answer : Except DecodeError ν,
        (answers ++ [answer]).filterMap place? =
          answers.filterMap place? ++ (place? answer).toList := by
      intro answer
      rw [List.filterMap_append, List.filterMap_cons]
      cases place? answer <;> rfl
    simp only [if_true, hplaces]
    exact hreadings.trans hroot

/-- Going on never takes the cursor back. -/
theorem pos_le_session (h : Header) (depths more : List UInt64) (whole : Bool) (s : σ) :
    (readings b o depths ⟨window bytes pos stop, s⟩).2.cursor.pos ≤
      (session b o h (depths ++ more) whole ⟨window bytes pos stop, s⟩).2.cursor.pos := by
  obtain ⟨next, hreadings⟩ := moves_readings b o hpos depths s
  rw [session_append]
  generalize readings b o depths ⟨window bytes pos stop, s⟩ = result at hreadings ⊢
  obtain ⟨answers, ⟨c, s'⟩⟩ := result
  obtain rfl : c = window bytes next stop := hreadings.cursor
  obtain ⟨pos', hmore⟩ := moves_session b o (Nat.le_trans hpos hreadings.le) h more whole s'
  exact Nat.le_trans hmore.le (Nat.le_of_eq (congrArg Cursor.pos hmore.cursor).symm)

end

/-- At the end of its window a walk stays where it is, whatever it is asked for. -/
theorem readings_of_atEnd (b : Builder σ ν) (o : Options) (depths : List UInt64) {s : State σ}
    (h : s.cursor.atEnd = true) :
    readings b o depths s = (depths.map fun _ => .error (.truncated s.cursor.pos), s) := by
  induction depths with
  | nil => rfl
  | cons depth depths ih =>
    rw [readings_cons, call, valueAt_of_atEnd b o depth h, List.map_cons]
    simp only [ih]

theorem root_of_atEnd (b : Builder σ ν) (o : Options) (h : Header) {s : State σ}
    (hend : s.cursor.atEnd = true) :
    call (root b o h) s = (.error (.truncated s.cursor.pos), s) := by
  rw [call, root_eq, valueAt_of_atEnd b o 0 hend]

end Walk

/-! ## Regions -/

/-- Two buffers start a walk from the same window if they agree where it is. -/
theorem region_congr {bytes bytes' : List UInt8} {h : Header}
    (hlast : min h.stop bytes'.length = min h.stop bytes.length)
    (hagree : ∀ i, headerSize ≤ i → i < min h.stop bytes.length → bytes'[i]? = bytes[i]?) :
    h.region bytes' = h.region bytes := by
  have hrest : (bytes'.drop headerSize).take (min h.stop bytes.length - headerSize) =
      (bytes.drop headerSize).take (min h.stop bytes.length - headerSize) := by
    refine List.ext_getElem? fun i => ?_
    simp only [List.getElem?_take, List.getElem?_drop]
    split
    · exact hagree _ (Nat.le_add_right ..) (by omega)
    · rfl
  simp only [Header.region, window, hlast, hrest]

/-- **A walk that is driven directly keeps inside the region**, whatever bytes it has, whatever
size a header declares for them, and whatever it is asked for: values at depths of any size, one
after the other, going on after failures, and the root value at the end or not.

* The cursor stands between the end of the header and the last byte of the region, or where the
  header ends if the region is empty or ends before that. It never goes back.
* The places that errors point at are there too, none before an earlier one.
* Behind the last byte, every further call fails for that place, and changes nothing.
* Bytes in front of the region or behind it have no influence, nor has their number. -/
theorem session_sound (bytes : List UInt8) (declared : UInt32) (b : Builder σ ν) (o : Options)
    (s : σ) (depths : List UInt64) (whole : Bool) :
    let h : Header := ⟨declared⟩
    let last := min declared.toNat bytes.length
    let start : Walk.State σ := ⟨h.region bytes, s⟩
    let result := Walk.session b o h depths whole start
    let places := result.1.filterMap place?
    let after := (Walk.readings b o depths start).2
    (∃ pos, result.2.cursor = window bytes pos declared.toNat ∧ headerSize ≤ pos ∧
      pos ≤ max headerSize last) ∧
    (∀ more, after.cursor.pos ≤
      (Walk.session b o h (depths ++ more) whole start).2.cursor.pos) ∧
    (∀ place ∈ places, headerSize ≤ place ∧ place ≤ max headerSize last) ∧
    places.Pairwise (· ≤ ·) ∧
    (after.cursor.atEnd = true →
      (∀ more, Walk.readings b o more after =
        (more.map fun _ => .error (.truncated after.cursor.pos), after)) ∧
      Walk.call (Walk.root b o h) after = (.error (.truncated after.cursor.pos), after)) ∧
    ∀ bytes' : List UInt8, min declared.toNat bytes'.length = last →
      (∀ i, headerSize ≤ i → i < last → bytes'[i]? = bytes[i]?) →
      Walk.session b o h depths whole ⟨h.region bytes', s⟩ = result := by
  intro h last start result places after
  obtain ⟨pos, hmoves⟩ : ∃ pos, Walk.Moves bytes declared.toNat headerSize pos places
      result.2.cursor := Walk.moves_session b o (Nat.le_refl _) h depths whole s
  refine ⟨⟨pos, hmoves.cursor, hmoves.le, hmoves.le_max⟩, fun more => ?_, fun place hplace => ?_,
    hmoves.sorted, fun hend => ?_, fun bytes' hlast hagree => ?_⟩
  · exact Walk.pos_le_session b o (Nat.le_refl _) h depths more whole s
  · have hbetween := hmoves.between place hplace
    exact ⟨hbetween.1, Nat.le_trans hbetween.2 hmoves.le_max⟩
  · exact ⟨fun more => Walk.readings_of_atEnd b o more hend, Walk.root_of_atEnd b o h hend⟩
  · rw [region_congr hlast hagree]

end WireTree
