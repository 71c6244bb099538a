import WireTree.Proofs.Region

/-!
# Requests to a cursor

What a cursor answers and where it stands, in any run of requests.

* `Cursor.ask s c` is the answer to a request for an item of the shape `s`, with the cursor behind
  it. `Cursor.askAll c ss` are the answers to requests one after the other: the next starts where
  the one before has stopped, also if that failed.
* `Shape.width?` is the number of bytes that a request asks for. A variable-width number does not
  tell beforehand.
* `Cursor.Answers bytes stop pos s answer pos'`: at the position `pos`, a request for the shape `s`
  comes to `answer` and the position `pos'`. There is one rule for each way that this can go, and
  all are said by the bytes and by positions in them, counted without bound.

A window may start past its own stop. Every request is then refused, one for no bytes included.

Results:
* `settled`: what a request comes to in a window, and that the window stays.
* `Answers.le`, `Answers.le_max`: no answer moves the cursor back, or past the stop.
* **`ask_within_window`**: so it is in every run of requests.
-/

namespace WireTree

/-- The number of bytes that a request asks for, if that is settled beforehand. -/
def Shape.width? : Shape → Option Nat
  | unsigned w => some w.bytes
  | signed w => some w.bytes
  | single => some Width.w32.bytes
  | double => some Width.w64.bytes
  | bytes n => some n
  | text n => some n
  | varint => none

namespace Cursor

/-! ## Requests -/

/-- The answer to a request, and the cursor that it leaves. -/
def ask (s : Shape) (c : Cursor) : Except ReadError Item × Cursor :=
  match item s c with
  | .ok i after => (.ok i, after)
  | .error e after => (.error e, after)

/-- The answers to requests one after the other, and the cursor that the last leaves. -/
def askAll (c : Cursor) : List Shape → List (Except ReadError Item) × Cursor
  | [] => ([], c)
  | s :: ss =>
    let (answer, after) := ask s c
    let (answers, last) := askAll after ss
    (answer :: answers, last)

theorem ask_of_eq_ok {s : Shape} {c after : Cursor} {i : Item} (h : item s c = .ok i after) :
    ask s c = (.ok i, after) := by
  rw [ask, h]

theorem ask_of_eq_error {s : Shape} {c after : Cursor} {e : ReadError}
    (h : item s c = .error e after) : ask s c = (.error e, after) := by
  rw [ask, h]

theorem askAll_cons {s : Shape} {c after : Cursor} {answer : Except ReadError Item}
    (h : ask s c = (answer, after)) (ss : List Shape) :
    askAll c (s :: ss) = (answer :: (askAll after ss).1, (askAll after ss).2) := by
  rw [askAll, h]

/-- What a request comes to that is made at the position `pos` of `bytes`, in a window up to `stop`:
the answer, and the position behind. -/
inductive Answers (bytes : List UInt8) (stop pos : Nat) :
    Shape → Except ReadError Item → Nat → Prop
  /-- The bytes from the position on are those of the item. -/
  | read {s : Shape} {i : Item} {n : Nat} (hshape : i.shape = s) (hwidth : s.width? = some n)
      (hfits : pos + n ≤ stop) (hbytes : (bytes.drop pos).take n = i.encode) :
      Answers bytes stop pos s (.ok i) (pos + n)
  /-- The bytes from the position on are a form of the number. -/
  | number {m : UInt64} {n : Nat} (hfits : pos + n ≤ stop)
      (hform : Varint.Form m ((bytes.drop pos).take n)) :
      Answers bytes stop pos .varint (.ok (.varint m)) (pos + n)
  /-- The window does not have as many bytes. -/
  | missing {s : Shape} {n : Nat} (hwidth : s.width? = some n) (hmissing : stop < pos + n) :
      Answers bytes stop pos s (.error .endOfBuffer) pos
  /-- The bytes are there, and they are no text. -/
  | notText {n : Nat} (hfits : pos + n ≤ stop)
      (htext : ∀ s, (bytes.drop pos).take n ≠ Utf8.encode s) :
      Answers bytes stop pos (.text n) (.error .invalidUtf8) pos
  /-- There is no byte left for a number. -/
  | noNumber (hmissing : stop < pos + 1) : Answers bytes stop pos .varint (.error .endOfBuffer) pos
  /-- There is a marker, and the window does not have the word that it announces. -/
  | noWord {w : Width} (hw : w ≠ .w8) (hfits : pos + 1 ≤ stop)
      (hmarker : bytes[pos]? = some (Varint.marker w)) (hmissing : stop < pos + 1 + w.bytes) :
      Answers bytes stop pos .varint (.error .endOfBuffer) (pos + 1)

section
variable {bytes : List UInt8} {stop pos pos' : Nat} {s : Shape} {answer : Except ReadError Item}

theorem Answers.le (h : Answers bytes stop pos s answer pos') : pos ≤ pos' := by
  cases h <;> omega

theorem Answers.le_max (h : Answers bytes stop pos s answer pos') : pos' ≤ max pos stop := by
  cases h <;> omega

end

/-! ## Reading from a window -/

section
variable {bytes : List UInt8} {pos stop : Nat}

theorem take_window_of_le {n : Nat} (h : pos + n ≤ min stop bytes.length) :
    take n (window bytes pos stop) =
      .ok ((bytes.drop pos).take n) (window bytes (pos + n) stop) := by
  have hrest : (window bytes pos stop).rest.take n = (bytes.drop pos).take n := by
    rw [window, List.take_take, Nat.min_eq_left (Nat.le_sub_of_add_le' h)]
  rw [take_of_le h, hrest, advance_window]

theorem take_window_of_lt {n : Nat} (h : min stop bytes.length < pos + n) :
    take n (window bytes pos stop) = .error .endOfBuffer (window bytes pos stop) :=
  take_of_lt h

theorem length_take_drop {n : Nat} (h : pos + n ≤ min stop bytes.length) :
    ((bytes.drop pos).take n).length = n := by
  rw [List.length_take, List.length_drop]
  omega

theorem word_window_of_le {w : Width} (h : pos + w.bytes ≤ min stop bytes.length) :
    ∃ x, w.encode x = (bytes.drop pos).take w.bytes ∧
      word w (window bytes pos stop) = .ok x (window bytes (pos + w.bytes) stop) :=
  ⟨_, w.encode_decode (length_take_drop h), bind_of_eq_ok (take_window_of_le h) _⟩

theorem word_window_of_lt {w : Width} (h : min stop bytes.length < pos + w.bytes) :
    word w (window bytes pos stop) = .error .endOfBuffer (window bytes pos stop) :=
  bind_of_eq_error (take_window_of_lt h) _

theorem byte_window_of_le (h : pos + 1 ≤ min stop bytes.length) :
    ∃ b, (bytes.drop pos).take 1 = [b] ∧
      byte (window bytes pos stop) = .ok b (window bytes (pos + 1) stop) := by
  obtain ⟨x, hx, hword⟩ := word_window_of_le (w := .w8) h
  exact ⟨UInt8.ofBitVec x, hx.symm.trans (encode_w8 x), bind_of_eq_ok hword _⟩

theorem byte_window_of_lt (h : min stop bytes.length < pos + 1) :
    byte (window bytes pos stop) = .error .endOfBuffer (window bytes pos stop) :=
  bind_of_eq_error (word_window_of_lt (w := .w8) h) _

/-! ## What a request comes to -/

/-- A request in a window comes to an answer that the bytes settle, and leaves the same window
behind another position. -/
def Settled (bytes : List UInt8) (stop pos : Nat) (s : Shape) : Prop :=
  ∃ answer pos', ask s (window bytes pos stop) = (answer, window bytes pos' stop) ∧
    Answers bytes (min stop bytes.length) pos s answer pos'

/-- A request for a word that is taken as some item. -/
theorem settled_word {s : Shape} {w : Width} {f : BitVec w.bits → Item}
    (hitem : item s = do return f (← word w)) (hwidth : s.width? = some w.bytes)
    (hshape : ∀ x, (f x).shape = s) (hencode : ∀ x, (f x).encode = w.encode x) :
    Settled bytes stop pos s := by
  by_cases h : pos + w.bytes ≤ min stop bytes.length
  · obtain ⟨x, hx, hword⟩ := word_window_of_le h
    refine ⟨_, _, ask_of_eq_ok (hitem ▸ bind_of_eq_ok hword _), ?_⟩
    exact .read (hshape x) hwidth h ((hencode x).trans hx).symm
  · have hlt := Nat.lt_of_not_le h
    exact ⟨_, _, ask_of_eq_error (hitem ▸ bind_of_eq_error (word_window_of_lt hlt) _),
      .missing hwidth hlt⟩

theorem settled_bytes (n : Nat) : Settled bytes stop pos (.bytes n) := by
  by_cases h : pos + n ≤ min stop bytes.length
  · refine ⟨_, _, ask_of_eq_ok (bind_of_eq_ok (take_window_of_le h) _), ?_⟩
    exact .read (congrArg Shape.bytes (length_take_drop h)) rfl h rfl
  · have hlt := Nat.lt_of_not_le h
    exact ⟨_, _, ask_of_eq_error (bind_of_eq_error (take_window_of_lt hlt) _), .missing rfl hlt⟩

/-- Bytes that are missing are noticed before bytes that are no text. -/
theorem settled_text (n : Nat) : Settled bytes stop pos (.text n) := by
  by_cases h : pos + n ≤ min stop bytes.length
  · cases hs : Utf8.decode? ((bytes.drop pos).take n) with
    | some s =>
      have htext : text n (window bytes pos stop) = .ok s (window bytes (pos + n) stop) := by
        simp only [text, take_window_of_le h, hs]
      have hbytes := Utf8.decode?_eq_some_iff.1 hs
      have hlen : s.utf8ByteSize = n := by
        rw [← Utf8.length_encode, ← hbytes, length_take_drop h]
      exact ⟨_, _, ask_of_eq_ok (bind_of_eq_ok htext _),
        .read (congrArg Shape.text hlen) rfl h hbytes⟩
    | none =>
      have htext : text n (window bytes pos stop) =
          .error .invalidUtf8 (window bytes pos stop) := by
        simp only [text, take_window_of_le h, hs]
      refine ⟨_, _, ask_of_eq_error (bind_of_eq_error htext _), .notText h fun s hbytes => ?_⟩
      rw [hbytes, Utf8.decode?_encode] at hs
      cases hs
  · have hlt := Nat.lt_of_not_le h
    have htext : text n (window bytes pos stop) = .error .endOfBuffer (window bytes pos stop) := by
      simp only [text, take_window_of_lt hlt]
    exact ⟨_, _, ask_of_eq_error (bind_of_eq_error htext _), .missing rfl hlt⟩

/-- A number whose first byte is a marker, and the word that this announces. -/
theorem settled_marker {w : Width} (hw : w ≠ .w8) (hfits : pos + 1 ≤ min stop bytes.length)
    (hfirst : (bytes.drop pos).take 1 = [Varint.marker w])
    (hbyte : byte (window bytes pos stop) = .ok (Varint.marker w) (window bytes (pos + 1) stop)) :
    Settled bytes stop pos .varint := by
  by_cases hroom : pos + 1 + w.bytes ≤ min stop bytes.length
  · obtain ⟨x, hx, hword⟩ := word_window_of_le hroom
    have hread : Varint.read (window bytes pos stop) =
        .ok (UInt64.ofBitVec (x.setWidth 64)) (window bytes (pos + (1 + w.bytes)) stop) := by
      rw [Varint.read, bind_of_eq_ok hbyte, Varint.ofMarker?_marker hw, ← Nat.add_assoc]
      exact bind_of_eq_ok hword _
    have hform : (bytes.drop pos).take (1 + w.bytes) = Varint.marker w :: w.encode x := by
      rw [List.take_add, hfirst, List.drop_drop, ← hx]
      rfl
    refine ⟨_, _, ask_of_eq_ok (bind_of_eq_ok hread _), .number (by omega) ?_⟩
    rw [hform]
    exact .word hw x
  · have hlt := Nat.lt_of_not_le hroom
    have hread : Varint.read (window bytes pos stop) =
        .error .endOfBuffer (window bytes (pos + 1) stop) := by
      rw [Varint.read, bind_of_eq_ok hbyte, Varint.ofMarker?_marker hw]
      exact bind_of_eq_error (word_window_of_lt hlt) _
    have hget : bytes[pos]? = some (Varint.marker w) := by
      have hhead := congrArg List.head? hfirst
      rwa [List.head?_take, if_neg Nat.one_ne_zero, List.head?_drop] at hhead
    exact ⟨_, _, ask_of_eq_error (bind_of_eq_error hread _), .noWord hw hfits hget hlt⟩

/-- A number is its first byte, unless this is a marker. -/
theorem settled_varint : Settled bytes stop pos .varint := by
  by_cases h : pos + 1 ≤ min stop bytes.length
  · obtain ⟨first, hfirst, hbyte⟩ := byte_window_of_le h
    cases hmarker : Varint.ofMarker? first with
    | none =>
      have hread : Varint.read (window bytes pos stop) =
          .ok first.toUInt64 (window bytes (pos + 1) stop) := by
        rw [Varint.read, bind_of_eq_ok hbyte, hmarker]
        rfl
      refine ⟨_, _, ask_of_eq_ok (bind_of_eq_ok hread _), .number h ?_⟩
      rw [hfirst]
      exact .direct (Varint.ofMarker?_eq_none_iff.1 hmarker)
    | some w =>
      obtain ⟨hw, rfl⟩ := Varint.ofMarker?_eq_some_iff.1 hmarker
      exact settled_marker hw h hfirst hbyte
  · have hlt := Nat.lt_of_not_le h
    have hread : Varint.read (window bytes pos stop) = _ :=
      bind_of_eq_error (byte_window_of_lt hlt) _
    exact ⟨_, _, ask_of_eq_error (bind_of_eq_error hread _), .noNumber hlt⟩

theorem settled (bytes : List UInt8) (stop pos : Nat) (s : Shape) :
    Settled bytes stop pos s := by
  cases s with
  | unsigned w => exact settled_word rfl rfl (fun _ => rfl) (fun _ => rfl)
  | signed w => exact settled_word rfl rfl (fun _ => rfl) (fun _ => rfl)
  | single =>
    refine settled_word (w := .w32) (f := fun x => .single ⟨x⟩) ?_ rfl (fun _ => rfl) (fun _ => rfl)
    simp only [item, single, bind_assoc, pure_bind]
  | double =>
    refine settled_word (w := .w64) (f := fun x => .double ⟨x⟩) ?_ rfl (fun _ => rfl) (fun _ => rfl)
    simp only [item, double, bind_assoc, pure_bind]
  | bytes n => exact settled_bytes n
  | text n => exact settled_text n
  | varint => exact settled_varint

end

/-! ## Runs of requests -/

/-- Requests move a cursor through its window: not back, and not past the stop. -/
theorem askAll_window (bytes : List UInt8) (start stop : Nat) (ss : List Shape) :
    ∃ pos, start ≤ pos ∧ pos ≤ max start (min stop bytes.length) ∧
      (askAll (window bytes start stop) ss).2 = window bytes pos stop := by
  induction ss generalizing start with
  | nil => exact ⟨start, Nat.le_refl _, Nat.le_max_left .., rfl⟩
  | cons s ss ih =>
    obtain ⟨answer, next, hask, hanswers⟩ := settled bytes stop start s
    have hle := hanswers.le
    have hmax := hanswers.le_max
    obtain ⟨pos, hpos, hposmax, hlast⟩ := ih next
    refine ⟨pos, by omega, by omega, ?_⟩
    rw [askAll_cons hask]
    exact hlast

/-- **A cursor never leaves its window**, whatever is asked of it. From a window of any bytes with
any start and stop, also if the start is behind the stop or the stop behind the end of the bytes,
and after any requests:

* The cursor stands from the start up to the last byte of the window, or at the start if that is
  further, and this is a machine word. It still has the window from there on, so what remains are
  the bytes from there to the end of the window, and it is at the end if these are none.
* Every further request comes to an answer that these bytes settle. If it succeeds, the item is made
  of the bytes from the position on, which are in the window, and the cursor stands behind them. If
  it fails, the cursor stays, unless the marker of a number is all that is there of it. -/
theorem ask_within_window (bytes : List UInt8) (start stop : UInt64) (done : List Shape) :
    let last := min stop.toNat bytes.length
    let c := (askAll (window bytes start.toNat stop.toNat) done).2
    start.toNat ≤ c.pos ∧ c.pos ≤ max start.toNat last ∧ c.pos < 0x1_0000_0000_0000_0000 ∧
      c = window bytes c.pos stop.toNat ∧ c.remaining = last - c.pos ∧
      (c.atEnd = true ↔ c.remaining = 0) ∧
      ∀ s : Shape, ∃ answer pos', ask s c = (answer, window bytes pos' stop.toNat) ∧
        c.pos ≤ pos' ∧ pos' ≤ max start.toNat last ∧ Answers bytes last c.pos s answer pos' := by
  intro last c
  obtain ⟨pos, hpos, hmax, hc⟩ := askAll_window bytes start.toNat stop.toNat done
  have hstart := start.toNat_lt
  have hstop := stop.toNat_lt
  have hcpos : c.pos = pos := congrArg Cursor.pos hc
  rw [hcpos]
  refine ⟨hpos, hmax, by omega, hc, congrArg Cursor.remaining hc, atEnd_iff, fun s => ?_⟩
  obtain ⟨answer, pos', hask, hanswers⟩ := settled bytes stop.toNat pos s
  have hle := hanswers.le_max
  exact ⟨answer, pos', (congrArg (ask s) hc).trans hask, hanswers.le, by omega, hanswers⟩

end Cursor

end WireTree
