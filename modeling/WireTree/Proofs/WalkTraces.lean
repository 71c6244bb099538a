import WireTree.Proofs.CallLogs
import WireTree.Proofs.ErrorPlaces

/-!
# Traces of walks

What a walk does in the order in which it does it, with any builder, whether it succeeds or fails.

* An `Event` is that the walk has come to where a value should start, or that it has asked something
  of its builder.
* `Builder.recording b f` writes down, beside its own state, what the builder is asked.
  `requests b o bytes s` are all requests that decoding makes.
* `Walk.traced` reads a value as `Walk.value` does and writes down the events. `trace b o bytes s`
  are those of decoding.
* `MembersAt bytes p unit`: at `p` stands the tag of a container whose members take `unit` bytes at
  least. `Excessive bytes stop start unit`: the number at `start` is too large for members of that
  size before `stop`.
* `Visit refusal bytes stop levels pos events fault pos'`: the events of reading a value from `pos`
  to `pos'`, with the error if it has failed. `Members` are those of reading the members of a
  container. There is one rule for each way in which reading can go on or end.

Results:
* `Walk.inStep_traced`: neither recording nor tracing makes a difference, and both tell the same.
* **`Walk.visits_traced`**: the events of a traced walk are those of a visit.
* **`visit_of_trace`**: so are the events of decoding.
-/

namespace WireTree

open Cursor (window)

variable {σ σ₁ σ₂ τ ν α β : Type}

/-! ## Requests and events -/

namespace Request

/-- The request is to put an element into a container. -/
def attaches : Request ν → Bool
  | append _ _ | set _ _ _ => true
  | null | bool _ | integer _ | uinteger _ | real _ | text _ | bytes _ | array _ | object _ => false

/-- For a request to make a container, the least number of bytes of its members, and the number of
members that is announced. -/
def announced? : Request ν → Option (Nat × Nat)
  | array n => some (1, n)
  | object n => some (2, n)
  | _ => none

theorem attaches_of_isScalar {r : Request ν} (h : r.isScalar = true) : r.attaches = false := by
  cases r <;> first | rfl | cases h

theorem announced?_of_isScalar {r : Request ν} (h : r.isScalar = true) : r.announced? = none := by
  cases r <;> first | rfl | cases h

theorem attaches_of_announced? {r : Request ν} {unit n : Nat} (h : r.announced? = some (unit, n)) :
    r.attaches = false := by
  cases r <;> first | rfl | cases h

theorem announced?_of_attaches {r : Request ν} (h : r.attaches = true) : r.announced? = none := by
  cases r <;> first | rfl | cases h

end Request

/-- What can be seen of a walk. -/
inductive Event (ν : Type) where
  /-- The walk has come to where a value should start. -/
  | came (offset : Nat)
  /-- It has asked something of its builder. -/
  | asked (r : Request ν)

/-- What was asked. -/
def Event.request? : Event ν → Option (Request ν)
  | came _ => none
  | asked r => some r

/-- All that was asked. -/
def Event.requests (events : List (Event ν)) : List (Request ν) :=
  events.filterMap Event.request?

/-- The builder with a record of what it is asked beside its state. -/
def Builder.recording (b : Builder σ ν) (f : Request ν → τ) : Builder (σ × List τ) ν :=
  .ofAnswer fun r s => ((b.answer r s.1).1, (b.answer r s.1).2, s.2 ++ [f r])

namespace Walk

/-- Writes down where the walk has come to. -/
def come : Walk (σ × List (Event ν)) Unit
  | ⟨c, s, seen⟩ => .ok () ⟨c, s, seen ++ [.came c.pos]⟩

/-- Reads a tag and its payload, and writes the events down. -/
def tracedNode (b : Builder σ ν) (o : Options) (inner : Interior (σ × List (Event ν)) ν) :
    Walk (σ × List (Event ν)) ν := do
  come
  node (b.recording .asked) o inner

/-- Reads a value, and writes the events down. -/
def traced (b : Builder σ ν) (o : Options) (refusal : Refusal) :
    Nat → Walk (σ × List (Event ν)) ν
  | 0 => tracedNode b o (.error refusal)
  | levels + 1 => tracedNode b o (.ok (traced b o refusal levels))

end Walk

/-- All that decoding asks of a builder. -/
def requests (b : Builder σ ν) (o : Options) (bytes : List UInt8) (s : σ) : List (Request ν) :=
  (decodeWith (b.recording id) o bytes (s, [])).2.2

/-- The events of decoding. -/
def trace (b : Builder σ ν) (o : Options) (bytes : List UInt8) (s : σ) : List (Event ν) :=
  match Header.parse bytes with
  | .error _ => []
  | .ok h =>
    (stateAfter (Walk.traced b o (o.refusal 0) (o.levels 0) ⟨h.region bytes, s, []⟩)).built.2

/-! ## Records make no difference -/

namespace Builder

/-- Without the record, a builder that records is related to what it is. -/
theorem related_recording (b : Builder σ ν) (f : Request ν → τ) :
    Related (fun s₁ s₂ => s₁ = s₂.1) Eq b (b.recording f) := by
  constructor <;> intros <;> subst_vars <;> rintro _ s rfl <;> exact ⟨rfl, rfl⟩

/-- The two states are the same, and what the first has recorded are the requests of the second. -/
def SameRequests (s₁ : σ × List (Request ν)) (s₂ : σ × List (Event ν)) : Prop :=
  s₁ = (s₂.1, Event.requests s₂.2)

/-- It does not matter where the walk has come to. -/
theorem SameRequests.came {s₁ : σ × List (Request ν)} {s : σ} {seen : List (Event ν)}
    (h : SameRequests s₁ (s, seen)) (p : Nat) : SameRequests s₁ (s, seen ++ [.came p]) := by
  cases h
  simp only [SameRequests, Event.requests, List.filterMap_append]
  exact congrArg (Prod.mk s) (List.append_nil _).symm

/-- Requests are recorded as they are traced. -/
theorem related_recording_asked (b : Builder σ ν) :
    Related SameRequests Eq (b.recording id) (b.recording Event.asked) := by
  have halike : ∀ r : Request ν, Alike SameRequests Eq ((b.recording id).answer r)
      ((b.recording Event.asked).answer r) := by
    rintro r _ ⟨s, seen⟩ rfl
    simp only [recording, answer_ofAnswer, SameRequests, Event.requests, List.filterMap_append]
    exact ⟨trivial, rfl⟩
  exact {
    null := halike .null
    bool := fun x => halike (.bool x)
    integer := fun n => halike (.integer n)
    uinteger := fun n => halike (.uinteger n)
    real := fun x => halike (.real x)
    text := fun s => halike (.text s)
    bytes := fun bs => halike (.bytes bs)
    array := fun n => halike (.array n)
    append := by
      rintro x _ y _ rfl rfl
      exact halike (.append x y)
    object := fun n => halike (.object n)
    set := by
      rintro x _ key y _ rfl rfl
      exact halike (.set x key y) }

end Builder

namespace Walk

/-- **A traced walk does what the walk does**, with any builder that is related to the one that
traces, as long as it does not matter where the walk has come to. -/
theorem inStep_traced {S : σ₁ → σ × List (Event ν) → Prop} {b₁ : Builder σ₁ ν} {b : Builder σ ν}
    (hb : Builder.Related S Eq b₁ (b.recording .asked))
    (hcame : ∀ s₁ s seen p, S s₁ (s, seen) → S s₁ (s, seen ++ [.came p])) (o : Options)
    (refusal : Refusal) (levels : Nat) :
    InStep S Eq (value b₁ o refusal levels) (traced b o refusal levels) := by
  have hcome : InStep S Eq (pure () : Walk σ₁ Unit) come :=
    fun c s₁ s₂ hs => .ok c rfl (hcame s₁ s₂.1 s₂.2 c.pos hs)
  induction levels with
  | zero =>
    have hnode := inStep_node hb o (.refused refusal)
    exact hcome.bind_eq fun _ => hnode
  | succ levels ih =>
    have hnode := inStep_node hb o (.opened ih)
    exact hcome.bind_eq fun _ => hnode

end Walk

/-! ## What a trace may be -/

/-- At `p` stands the tag of a container whose members take `unit` bytes at least. -/
def MembersAt (bytes : List UInt8) (p unit : Nat) : Prop :=
  (bytes[p]? = some 0x0e ∧ unit = 1) ∨ (bytes[p]? = some 0x0f ∧ unit = 2)

/-- At `start` stands a number that is too large for as many members of `unit` bytes. -/
def Excessive (bytes : List UInt8) (stop start unit : Nat) : Prop :=
  ∃ (n : UInt64) (k : Nat), Varint.Form n ((bytes.drop start).take k) ∧ start + k ≤ stop ∧
    stop < start + k + n.toNat * unit

mutual

/-- The events of reading a value from `pos` to `pos'` in which containers may nest as many levels
as given, and the error if there is one. -/
inductive Visit (refusal : Refusal) (bytes : List UInt8) (stop : Nat) :
    Nat → Nat → List (Event ν) → Option DecodeError → Nat → Prop
  /-- The value is no container. -/
  | scalar {levels pos pos' : Nat} {r : Request ν} (hr : r.isScalar = true)
      (hflat : ∀ unit, ¬MembersAt bytes pos unit) (hlt : pos < pos') :
      Visit refusal bytes stop levels pos [.came pos, .asked r] none pos'
  /-- Nothing is asked before the error. It is settled by the tag and the count if that is too large
  for the members. -/
  | refused {levels pos pos' : Nat} {e : DecodeError} (hle : pos ≤ pos')
      (herror : ∀ unit, MembersAt bytes pos unit → Excessive bytes stop (pos + 1) unit →
        e = if 0 < levels then .truncated (pos + 1) else refusal.error pos) :
      Visit refusal bytes stop levels pos [.came pos] (some e) pos'
  /-- The value is a container whose members have room. -/
  | container {levels pos k pos' unit : Nat} {n : UInt64} {r : Request ν}
      {events : List (Event ν)} {fault : Option DecodeError}
      (hr : r.announced? = some (unit, n.toNat)) (htag : MembersAt bytes pos unit)
      (hform : Varint.Form n ((bytes.drop (pos + 1)).take k))
      (hroom : pos + 1 + k + n.toNat * unit ≤ stop)
      (hs : Members refusal bytes stop levels n.toNat (pos + 1 + k) events fault pos') :
      Visit refusal bytes stop (levels + 1) pos (.came pos :: .asked r :: events) fault pos'

/-- The events of reading a number of members. -/
inductive Members (refusal : Refusal) (bytes : List UInt8) (stop : Nat) :
    Nat → Nat → Nat → List (Event ν) → Option DecodeError → Nat → Prop
  | nil {levels pos : Nat} : Members refusal bytes stop levels 0 pos [] none pos
  /-- The error comes before the value of a member. -/
  | lost {levels n pos pos' : Nat} {e : DecodeError} (hle : pos ≤ pos') :
      Members refusal bytes stop levels (n + 1) pos [] (some e) pos'
  /-- The error comes in the value of a member, which starts at `start`. -/
  | broken {levels n pos start pos' : Nat} {e : DecodeError} {events : List (Event ν)}
      (hle : pos ≤ start) (h : Visit refusal bytes stop levels start events (some e) pos') :
      Members refusal bytes stop levels (n + 1) pos events (some e) pos'
  /-- The value of a member is put into the container, and the others follow. -/
  | cons {levels n pos start next pos' : Nat} {events rest : List (Event ν)} {r : Request ν}
      {fault : Option DecodeError} (hle : pos ≤ start)
      (h : Visit refusal bytes stop levels start events none next) (hr : r.attaches = true)
      (hs : Members refusal bytes stop levels n next rest fault pos') :
      Members refusal bytes stop levels (n + 1) pos (events ++ .asked r :: rest) fault pos'

end

namespace Walk

/-! ## Actions that are not traced -/

/-- The action moves on in its window, and leaves the builder as it is. -/
def Quiet (m : Walk σ α) : Prop :=
  ∀ s, Cursor.Ahead s.cursor (stateAfter (m s)).cursor ∧ (stateAfter (m s)).built = s.built

theorem readCoupling_quiet :
    ReadCoupling Cursor.Confined fun (m : Walk σ _) (_ : Walk σ _) => Quiet m where
  cursor := Cursor.closed_confined
  pure := fun _ s => ⟨.refl s.cursor, rfl⟩
  bind := stateAfter_bind
    (R := fun s s' : State σ => Cursor.Ahead s.cursor s'.cursor ∧ s'.built = s.built)
    fun h h' => ⟨h.1.trans h'.1, h'.2.trans h.2⟩
  reading := fun {_} {m} hm s => ⟨confined_reading hm s, untouched_reading m s⟩
  count := fun unit s => ⟨confined_count unit s, untouched_count unit s⟩

/-- Such an action ends somewhere in its window. -/
theorem Quiet.exists_pos {m : Walk σ α} (h : Quiet m) (bytes : List UInt8) {pos stop : Nat}
    (hpos : pos ≤ stop) (s : σ) :
    ∃ pos', pos ≤ pos' ∧ pos' ≤ stop ∧
      stateAfter (m ⟨window bytes pos stop, s⟩) = ⟨window bytes pos' stop, s⟩ := by
  obtain ⟨⟨n, hn, hcursor⟩, hbuilt⟩ := h ⟨window bytes pos stop, s⟩
  have hleft : n ≤ stop - pos := Nat.le_trans hn (Nat.sub_le_sub_right (Nat.min_le_left ..) pos)
  rw [Cursor.advance_window] at hcursor
  refine ⟨pos + n, Nat.le_add_right .., by omega, ?_⟩
  generalize stateAfter (m ⟨window bytes pos stop, s⟩) = after at hcursor hbuilt
  obtain ⟨c, s'⟩ := after
  obtain rfl : c = _ := hcursor
  obtain rfl : s' = s := hbuilt
  rfl

/-! ## Traced walks -/

/-- In the result, the record has gone on by events that `G` describes, with the error if there is
one and the position of the cursor. -/
inductive Recorded (bytes : List UInt8) (stop : Nat)
    (G : List (Event ν) → Option DecodeError → Nat → Prop) (seen : List (Event ν)) :
    EStateM.Result DecodeError (State (σ × List (Event ν))) α → Prop
  | ok {x : α} {events record : List (Event ν)} {pos' : Nat} {s : σ} (h : G events none pos')
      (hle : pos' ≤ stop) (hrecord : record = seen ++ events) :
      Recorded bytes stop G seen (.ok x ⟨window bytes pos' stop, s, record⟩)
  | error {e : DecodeError} {events record : List (Event ν)} {pos' : Nat} {s : σ}
      (h : G events (some e) pos') (hle : pos' ≤ stop) (hrecord : record = seen ++ events) :
      Recorded bytes stop G seen (.error e ⟨window bytes pos' stop, s, record⟩)

/-- Events that go on from earlier ones are described with these. -/
theorem Recorded.prepend {bytes : List UInt8} {stop : Nat}
    {G H : List (Event ν) → Option DecodeError → Nat → Prop} {seen events : List (Event ν)}
    {result : EStateM.Result DecodeError (State (σ × List (Event ν))) α}
    (h : Recorded bytes stop G (seen ++ events) result)
    (hGH : ∀ rest fault pos', G rest fault pos' → H (events ++ rest) fault pos') :
    Recorded bytes stop H seen result := by
  cases h with
  | ok h hle hrecord => exact .ok (hGH _ _ _ h) hle (hrecord.trans (List.append_assoc ..))
  | error h hle hrecord => exact .error (hGH _ _ _ h) hle (hrecord.trans (List.append_assoc ..))

/-- From everywhere in the region, the walk makes a visit. -/
def Visits (refusal : Refusal) (bytes : List UInt8) (stop levels : Nat)
    (m : Walk (σ × List (Event ν)) ν) : Prop :=
  ∀ pos ≤ stop, ∀ s seen,
    Recorded bytes stop (Visit refusal bytes stop levels pos) seen
      (m ⟨window bytes pos stop, s, seen⟩)

/-- So does what reads the values inside of a container, if one may be opened. -/
inductive VisitsInside (refusal : Refusal) (bytes : List UInt8) (stop : Nat) :
    Nat → Interior (σ × List (Event ν)) ν → Prop
  | refused : VisitsInside refusal bytes stop 0 (.error refusal)
  | opened {levels : Nat} {m : Walk (σ × List (Event ν)) ν}
      (h : Visits refusal bytes stop levels m) :
      VisitsInside refusal bytes stop (levels + 1) (.ok m)

/-- A request is traced. -/
theorem building_recording (b : Builder σ ν) (r : Request ν) (c : Cursor) (s : σ)
    (seen : List (Event ν)) :
    building ((b.recording .asked).answer r) ⟨c, s, seen⟩ =
      .ok (b.answer r s).1 ⟨c, (b.answer r s).2, seen ++ [.asked r]⟩ := by
  simp only [building, Builder.recording, Builder.answer_ofAnswer]

section
variable {b : Builder σ ν} {o : Options} {refusal : Refusal} {bytes : List UInt8}
  {stop levels : Nat} {inner : Walk (σ × List (Event ν)) ν}

/-- A value is read, which may not succeed, and put into the container, and then the others are
read. -/
theorem recorded_attach (hinner : Visits refusal bytes stop levels inner) {r : ν → Request ν}
    (hr : ∀ element, (r element).attaches = true) {f : ν → Walk (σ × List (Event ν)) ν} {n : Nat}
    (hrest : ∀ x, ∀ next ≤ stop, ∀ s seen,
      Recorded bytes stop (Members refusal bytes stop levels n next) seen
        (f x ⟨window bytes next stop, s, seen⟩))
    {pos start : Nat} (hlow : pos ≤ start) (hhigh : start ≤ stop) (s : σ)
    (seen : List (Event ν)) :
    Recorded bytes stop (Members refusal bytes stop levels (n + 1) pos) seen
      (((do let element ← inner; building ((b.recording .asked).answer (r element))) >>= f)
        ⟨window bytes start stop, s, seen⟩) := by
  have hvalue := hinner start hhigh s seen
  generalize hresult : inner ⟨window bytes start stop, s, seen⟩ = result at hvalue
  cases hvalue with
  | error h hle hrecord =>
    rw [bind_of_eq_error (bind_of_eq_error hresult _)]
    exact .error (.broken hlow h) hle hrecord
  | @ok element events record next s' h hle hrecord =>
    have hput := bind_of_eq_ok hresult fun element =>
      building ((b.recording .asked).answer (r element))
    rw [building_recording, hrecord, List.append_assoc] at hput
    rw [bind_of_eq_ok hput]
    refine (hrest _ next hle _ _).prepend fun rest fault pos' hs => ?_
    rw [List.append_assoc, List.singleton_append]
    exact .cons hlow h (hr element) hs

/-- The elements of an array are read. -/
theorem recorded_elements (hinner : Visits refusal bytes stop levels inner) (n : Nat) (x : ν)
    (pos : Nat) (hle : pos ≤ stop) (s : σ) (seen : List (Event ν)) :
    Recorded bytes stop (Members refusal bytes stop levels n pos) seen
      (times n (element (b.recording .asked) inner) x ⟨window bytes pos stop, s, seen⟩) := by
  induction n generalizing x pos s seen with
  | zero => exact .ok .nil hle (List.append_nil seen).symm
  | succ n ih =>
    have happend : ∀ element, (Request.append x element).attaches = true := fun _ => rfl
    exact recorded_attach hinner happend ih (Nat.le_refl pos) hle s seen

/-- The pairs of an object are read, each key before its value. -/
theorem recorded_pairs (hinner : Visits refusal bytes stop levels inner) (n : Nat) (x : ν)
    (pos : Nat) (hle : pos ≤ stop) (s : σ) (seen : List (Event ν)) :
    Recorded bytes stop (Members refusal bytes stop levels n pos) seen
      (times n (pair (b.recording .asked) inner) x ⟨window bytes pos stop, s, seen⟩) := by
  induction n generalizing x pos s seen with
  | zero => exact .ok .nil hle (List.append_nil seen).symm
  | succ n ih =>
    have hquiet : Quiet (text : Walk (σ × List (Event ν)) String) := readCoupling_quiet.text
    obtain ⟨start, hlow, hhigh, hkey⟩ := hquiet.exists_pos bytes hle (s, seen)
    rw [times, pair, bind_assoc]
    cases hresult : (text : Walk (σ × List (Event ν)) String) ⟨window bytes pos stop, s, seen⟩ with
    | error e after =>
      rw [hresult] at hkey
      obtain rfl : after = _ := hkey
      rw [bind_of_eq_error hresult]
      exact .error (.lost hlow) hhigh (List.append_nil seen).symm
    | ok key after =>
      rw [hresult] at hkey
      obtain rfl : after = _ := hkey
      rw [bind_of_eq_ok hresult]
      have hset : ∀ value, (Request.set x key value).attaches = true := fun _ => rfl
      exact recorded_attach hinner hset ih hlow hhigh s seen

/-- The count of a container is read, and the container is made if its members have room. -/
theorem recorded_counted (hstop : stop ≤ bytes.length) {unit : Nat} (make : Nat → Request ν)
    (hmake : ∀ n, (make n).announced? = some (unit, n))
    {member : ν → Walk (σ × List (Event ν)) ν}
    (hmembers : ∀ n x, ∀ pos ≤ stop, ∀ s seen,
      Recorded bytes stop (Members refusal bytes stop levels n pos) seen
        (times n member x ⟨window bytes pos stop, s, seen⟩))
    {pos : Nat} (htag : MembersAt bytes pos unit) (hlt : pos < stop) (s : σ)
    (seen : List (Event ν)) :
    Recorded bytes stop (Visit refusal bytes stop (levels + 1) pos) seen
      (counted unit (fun n => (b.recording Event.asked).answer (make n)) member
        ⟨window bytes (pos + 1) stop, s, seen ++ [.came pos]⟩) := by
  unfold counted
  obtain ⟨n, k, hcount, hform, hroom⟩ | ⟨pos', hcount, hlow, hhigh, -⟩ :=
    count_window hstop hlt unit (s, seen ++ [.came pos])
  · rw [bind_of_eq_ok hcount, bind_of_eq_ok (building_recording ..), List.append_assoc]
    have hle : pos + 1 + k ≤ stop := Nat.le_trans (Nat.le_add_right ..) hroom
    refine (hmembers _ _ _ hle _ _).prepend fun rest fault pos' hs => ?_
    exact .container (hmake _) htag hform hroom hs
  · rw [bind_of_eq_error hcount]
    refine .error (.refused (Nat.le_of_succ_le hlow) fun _ _ _ => ?_) hhigh rfl
    rw [if_pos (Nat.succ_pos levels)]

/-- The payload of a kind without other values is read, and the value is made. -/
theorem recorded_told {tag : Tag} {pos : Nat} (hflat : ∀ unit, ¬MembersAt bytes pos unit)
    (hlt : pos < stop) (s : σ) (seen : List (Event ν)) :
    Recorded bytes stop (Visit refusal bytes stop levels pos) seen
      (told (b.recording .asked) tag ⟨window bytes (pos + 1) stop, s, seen ++ [.came pos]⟩) := by
  have hquiet : Quiet (request tag : Walk (σ × List (Event ν)) (Request ν)) :=
    readCoupling_quiet.request tag
  obtain ⟨pos', hlow, hhigh, hafter⟩ :=
    hquiet.exists_pos bytes hlt (s, seen ++ [.came pos])
  unfold told
  cases hresult : (request tag : Walk (σ × List (Event ν)) (Request ν))
      ⟨window bytes (pos + 1) stop, s, seen ++ [.came pos]⟩ with
  | error e after =>
    rw [hresult] at hafter
    obtain rfl : after = _ := hafter
    rw [bind_of_eq_error hresult]
    exact .error (.refused (Nat.le_of_succ_le hlow) fun unit h => absurd h (hflat unit)) hhigh rfl
  | ok r after =>
    rw [hresult] at hafter
    obtain rfl : after = _ := hafter
    rw [bind_of_eq_ok hresult, building_recording, List.append_assoc]
    exact .ok (.scalar (isScalar_of_request hresult) hflat hlow) hhigh rfl

/-- A byte that names no container is not the tag of one. -/
theorem not_membersAt {pos : Nat} {byte : UInt8} (hbyte : bytes[pos]? = some byte)
    (hflat : ∀ tag, Tag.ofByte? byte = some tag → tag.isContainer = false) (unit : Nat) :
    ¬MembersAt bytes pos unit := by
  rintro (⟨h, -⟩ | ⟨h, -⟩)
  · cases hbyte.symm.trans h
    cases hflat .array rfl
  · cases hbyte.symm.trans h
    cases hflat .object rfl

/-- What is done behind the tag byte at `pos`. -/
theorem recorded_afterTag (hstop : stop ≤ bytes.length)
    {inner : Interior (σ × List (Event ν)) ν}
    (hinner : VisitsInside refusal bytes stop levels inner) {pos : Nat} {byte : UInt8}
    (hbyte : bytes[pos]? = some byte) (hlt : pos < stop) (s : σ) (seen : List (Event ν)) :
    Recorded bytes stop (Visit refusal bytes stop levels pos) seen
      (afterTag (b.recording .asked) o inner pos byte
        ⟨window bytes (pos + 1) stop, s, seen ++ [.came pos]⟩) := by
  cases htag : Tag.ofByte? byte with
  | none =>
    have hflat := not_membersAt hbyte fun tag h => absurd (htag.symm.trans h) nofun
    cases hpolicy : o.unknownTags with
    | reject =>
      simp only [afterTag, htag, hpolicy]
      exact .error (.refused (Nat.le_succ pos) fun unit h => absurd h (hflat unit)) hlt rfl
    | null =>
      have hnull : Recorded bytes stop (Visit refusal bytes stop levels pos) seen
          (building ((b.recording Event.asked).answer .null)
            ⟨window bytes (pos + 1) stop, s, seen ++ [.came pos]⟩) := by
        rw [building_recording, List.append_assoc]
        exact .ok (.scalar rfl hflat (Nat.lt_succ_self pos)) hlt rfl
      simp only [afterTag, htag, hpolicy]
      exact hnull
  | some tag =>
    cases hcontainer : tag.isContainer with
    | false =>
      have hflat := not_membersAt hbyte fun tag' h => by
        cases htag.symm.trans h
        exact hcontainer
      have htold : Recorded bytes stop (Visit refusal bytes stop levels pos) seen
          (told (b.recording .asked) tag
            ⟨window bytes (pos + 1) stop, s, seen ++ [.came pos]⟩) :=
        recorded_told hflat hlt s seen
      cases hinner <;>
        simpa only [afterTag, htag, hcontainer, Bool.false_eq_true, if_false] using htold
    | true =>
      rw [← Tag.toByte_of_ofByte? htag] at hbyte
      cases hinner with
      | refused =>
        simp only [afterTag, htag, hcontainer, if_true]
        refine .error (.refused (Nat.le_succ pos) fun _ _ _ => ?_) hlt rfl
        rw [if_neg (Nat.lt_irrefl 0)]
      | opened h =>
        simp only [afterTag, htag, hcontainer, if_true]
        cases tag with
        | array =>
          exact recorded_counted hstop .array (fun _ => rfl)
            (recorded_elements h) (.inl ⟨hbyte, rfl⟩) hlt s seen
        | object =>
          exact recorded_counted hstop .object (fun _ => rfl)
            (recorded_pairs h) (.inr ⟨hbyte, rfl⟩) hlt s seen
        | _ => cases hcontainer

theorem visits_tracedNode (hstop : stop ≤ bytes.length)
    {inner : Interior (σ × List (Event ν)) ν}
    (hinner : VisitsInside refusal bytes stop levels inner) :
    Visits refusal bytes stop levels (tracedNode b o inner) := by
  intro pos hle s seen
  show Recorded _ _ _ seen
    (node (b.recording .asked) o inner ⟨window bytes pos stop, s, seen ++ [.came pos]⟩)
  rw [node_eq]
  obtain ⟨hend, hrest⟩ | ⟨byte, rest, hlt, hbyte, hrest⟩ := Cursor.front_window bytes pos stop
  · rw [Nat.min_eq_left hstop] at hend
    simp only [hrest]
    refine .error (.refused (Nat.le_refl pos) ?_) hle rfl
    rintro unit - ⟨n, k, -, hfits, -⟩
    omega
  · rw [Nat.min_eq_left hstop] at hlt
    simp only [hrest, Cursor.advance_window]
    exact recorded_afterTag hstop hinner hbyte hlt s seen

/-- **The events of a traced walk are those of a visit**, whether it succeeds or fails. -/
theorem visits_traced (hstop : stop ≤ bytes.length) (b : Builder σ ν) (o : Options)
    (refusal : Refusal) :
    ∀ levels, Visits refusal bytes stop levels (traced b o refusal levels)
  | 0 => visits_tracedNode hstop .refused
  | levels + 1 => visits_tracedNode hstop (.opened (visits_traced hstop b o refusal levels))

end

end Walk

/-! ## Whole buffers -/

/-- Recording makes no difference to decoding. -/
theorem decodeWith_recording (b : Builder σ ν) (f : Request ν → τ) (o : Options)
    (bytes : List UInt8) (s : σ) (seen : List τ) :
    (decodeWith (b.recording f) o bytes (s, seen)).1 = (decodeWith b o bytes s).1 ∧
      (decodeWith (b.recording f) o bytes (s, seen)).2.1 = (decodeWith b o bytes s).2 := by
  obtain ⟨hanswer, hstate⟩ := decodeWith_related (b.related_recording f) o bytes s (s, seen) rfl
  refine ⟨?_, hstate.symm⟩
  obtain ⟨x₁, x₂, h₁, h₂, rfl⟩ | ⟨e, h₁, h₂⟩ := hanswer
  · rw [h₁, h₂]
  · rw [h₁, h₂]

section
variable {bytes : List UInt8} {header : Header} (hparse : Header.parse bytes = .ok header)
  (b : Builder σ ν) (o : Options) (s : σ)
include hparse

/-- The requests are those of the trace. -/
theorem requests_eq : requests b o bytes s = Event.requests (trace b o bytes s) := by
  have hstep := Walk.inStep_traced (Builder.related_recording_asked b)
    (fun _ _ _ p h => h.came p) o (o.refusal 0) (o.levels 0) (header.region bytes) (s, []) (s, [])
    rfl
  rw [requests, trace, decodeWith_of_parse hparse, hparse, Walk.valueAt]
  simp only
  generalize Walk.value (b.recording id) o (o.refusal 0) (o.levels 0)
      ⟨header.region bytes, s, []⟩ = r₁,
    Walk.traced b o (o.refusal 0) (o.levels 0) ⟨header.region bytes, s, []⟩ = r₂ at hstep
  cases hstep with
  | ok c hx hs => exact congrArg Prod.snd hs
  | error c e hs => exact congrArg Prod.snd hs

/-- **The events of decoding are those of a visit** from the end of the header to where the walk
ends. If there is an error, decoding fails with it. -/
theorem visit_of_trace :
    ∃ fault pos', Visit (o.refusal 0) bytes header.declared.toNat (o.levels 0) headerSize
        (trace b o bytes s) fault pos' ∧ pos' ≤ header.declared.toNat ∧
      (stateAfter (Walk.root b o header ⟨header.region bytes, s⟩)).cursor.pos = pos' ∧
      ∀ e, fault = some e → (decodeWith b o bytes s).1 = .error e := by
  obtain ⟨hfits, rfl⟩ := headerParse_eq_ok_iff.1 hparse
  have hvisit : Walk.Recorded bytes (declaredSize bytes).toNat _ []
      (Walk.traced b o (o.refusal 0) (o.levels 0)
        ⟨Header.region ⟨declaredSize bytes⟩ bytes, s, []⟩) :=
    Walk.visits_traced hfits.2 b o (o.refusal 0) (o.levels 0) headerSize hfits.headerSize_le s []
  have hstep := Walk.inStep_traced (b.related_recording Event.asked) (fun _ _ _ _ h => h) o
    (o.refusal 0) (o.levels 0) (Header.region ⟨declaredSize bytes⟩ bytes) s (s, []) rfl
  rw [trace, hparse, decodeWith_of_parse hparse, root_eq, Walk.valueAt]
  simp only
  generalize Walk.value b o (o.refusal 0) (o.levels 0)
      ⟨Header.region ⟨declaredSize bytes⟩ bytes, s⟩ = r₁,
    Walk.traced b o (o.refusal 0) (o.levels 0)
      ⟨Header.region ⟨declaredSize bytes⟩ bytes, s, []⟩ = r₂ at hvisit hstep
  cases hvisit with
  | @ok _ _ _ pos' _ h hle hrecord =>
    cases hstep with
    | ok _ hx hs =>
      subst hrecord
      refine ⟨none, pos', h, hle, ?_, fun e he => by cases he⟩
      simp only
      split <;> rfl
  | @error e _ _ pos' _ h hle hrecord =>
    cases hstep with
    | error _ _ hs =>
      subst hrecord
      refine ⟨some e, pos', h, hle, rfl, fun e' he => ?_⟩
      cases he
      rfl

end

end WireTree
