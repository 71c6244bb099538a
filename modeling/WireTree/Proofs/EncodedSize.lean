import WireTree.Proofs.AppendRuns
import WireTree.Proofs.RoundTrip

/-!
# Encoding into a buffer of the right size

The size of a value is known before it is encoded, and it is all the room that encoding needs.

* `Value.pieces` are the items of a value in the order in which they are written, and `Value.runs`
  are the runs of bytes in which a buffer gets them, behind the run of the header.
* Encoding resets the buffer, appends these runs, patches the header and takes everything out. Only
  appending makes room.

The runs add up to the body and its header, whose length is the size of the value.

Results:
* `putValue_eq_putAll`, `encode_eq_appendAll`: encoding as a sequence of items, and of runs.
* `flatten_runs`: the runs are the header and the body.
* **`encodedSize_exact`**: the size is that of the buffer that is made, and a buffer with that much
  room never grows and is full in the end.
-/

namespace WireTree

/-! ## The pieces of a value -/

namespace Value

/-- A tag as an item. -/
def pieceOfTag (t : Tag) : Item :=
  .unsigned .w8 t.toByte.toBitVec

/-- The pieces of an unsigned number. -/
def piecesOfUInt (n : UInt64) : List Item :=
  [pieceOfTag (.uint (Width.ofUInt n)),
    .unsigned (Width.ofUInt n) (n.toBitVec.setWidth (Width.ofUInt n).bits)]

/-- The pieces of a signed number. -/
def piecesOfInt (n : Int64) : List Item :=
  if 0 ≤ n.toInt then piecesOfUInt n.toUInt64
  else
    [pieceOfTag (.int (Width.ofNegative n)),
      .signed (Width.ofNegative n) (n.toBitVec.setWidth (Width.ofNegative n).bits)]

/-- The pieces of a real. -/
def piecesOfReal (x : Binary64) : List Item :=
  match x.narrow? with
  | some y => [pieceOfTag .single, .single y]
  | none => [pieceOfTag .double, .double x]

/-- The pieces of a text without its tag. -/
def piecesOfKey (s : String) : List Item :=
  [.varint (UInt64.ofNat s.utf8ByteSize), .text s]

mutual

/-- The items of a value in the order in which they are written. -/
def pieces : Value → List Item
  | null => [pieceOfTag .null]
  | bool x => [pieceOfTag .bool, .unsigned .w8 (if x then 1 else 0)]
  | int n => piecesOfInt n
  | uint n => piecesOfUInt n
  | real x => piecesOfReal x
  | text s => pieceOfTag .text :: piecesOfKey s
  | bytes bs => [pieceOfTag .bytes, .varint (UInt64.ofNat bs.length), .bytes bs]
  | array items =>
    pieceOfTag .array :: .varint (UInt64.ofNat items.length) :: itemsPieces items
  | object fields =>
    pieceOfTag .object :: .varint (UInt64.ofNat fields.length) :: fieldsPieces fields

/-- The items of values one after the other. -/
def itemsPieces : List Value → List Item
  | [] => []
  | v :: vs => v.pieces ++ itemsPieces vs

/-- The items of pairs one after the other. -/
def fieldsPieces : List (String × Value) → List Item
  | [] => []
  | (k, v) :: rest => piecesOfKey k ++ v.pieces ++ fieldsPieces rest

end

/-- The runs in which a value is written behind a header of zero. -/
def runs (v : Value) : List (List UInt8) :=
  Width.w32.encode 0 :: v.pieces.flatMap Item.runs

end Value

namespace AppendBuffer

/-- The buffer that items leave, one after the other. -/
def putAll (b : AppendBuffer) (items : List Item) : AppendBuffer :=
  items.foldl put b

theorem putAll_append (b : AppendBuffer) (items items' : List Item) :
    b.putAll (items ++ items') = (b.putAll items).putAll items' :=
  List.foldl_append

theorem putAll_eq_appendAll (b : AppendBuffer) (items : List Item) :
    b.putAll items = b.appendAll (items.flatMap Item.runs) := by
  induction items generalizing b with
  | nil => rfl
  | cons i items ih =>
    rw [List.flatMap_cons, appendAll_append, ← put_eq_appendAll]
    exact ih (b.put i)

theorem putInt_eq_putAll (b : AppendBuffer) (n : Int64) :
    b.putInt n = b.putAll (Value.piecesOfInt n) := by
  rw [putInt, Value.piecesOfInt]
  split <;> rfl

theorem putReal_eq_putAll (b : AppendBuffer) (x : Binary64) :
    b.putReal x = b.putAll (Value.piecesOfReal x) := by
  rw [putReal, Value.piecesOfReal]
  cases x.narrow? <;> rfl

mutual

/-- Writing a value is writing its pieces. -/
theorem putValue_eq_putAll : ∀ (v : Value) (b : AppendBuffer), b.putValue v = b.putAll v.pieces
  | .null, _ => rfl
  | .bool _, _ => rfl
  | .int n, b => putInt_eq_putAll b n
  | .uint _, _ => rfl
  | .real x, b => putReal_eq_putAll b x
  | .text _, _ => rfl
  | .bytes _, _ => rfl
  | .array items, b => putValues_eq_putAll items (b.putArrayHead items.length)
  | .object fields, b => putValueFields_eq_putAll fields (b.putObjectHead fields.length)

theorem putValues_eq_putAll : ∀ (vs : List Value) (b : AppendBuffer),
    b.putValues vs = b.putAll (Value.itemsPieces vs)
  | [], _ => rfl
  | v :: vs, b => by
    rw [Value.itemsPieces, putAll_append, ← putValue_eq_putAll v, putValues]
    exact putValues_eq_putAll vs (b.putValue v)

theorem putValueFields_eq_putAll : ∀ (fields : List (String × Value)) (b : AppendBuffer),
    b.putValueFields fields = b.putAll (Value.fieldsPieces fields)
  | [], _ => rfl
  | (k, v) :: rest, b => by
    have hkey : b.putAll (Value.piecesOfKey k) = b.putKey k := rfl
    rw [Value.fieldsPieces, putAll_append, putAll_append, hkey, ← putValue_eq_putAll v,
      putValueFields]
    exact putValueFields_eq_putAll rest ((b.putKey k).putValue v)

end

/-- Encoding appends the runs of the value to a buffer without pending bytes. -/
theorem encode_eq_appendAll (b : AppendBuffer) (v : Value) :
    b.encode v = (b.reset.appendAll v.runs).takeFramed := by
  rw [encode, putValue_eq_putAll, putAll_eq_appendAll]
  rfl

end AppendBuffer

/-! ## The room for a value -/

/-- The runs of a value are a header and its body. -/
theorem Value.flatten_runs (v : Value) : v.runs.flatten = Width.w32.encode 0 ++ v.body := by
  -- An empty buffer shows the bytes of the pieces, and these are the body.
  have hbody := (AppendBuffer.extends_putValue v (AppendBuffer.empty 0)).pending
  rw [AppendBuffer.putValue_eq_putAll, AppendBuffer.putAll_eq_appendAll,
    AppendBuffer.pending_appendAll] at hbody
  rw [runs, List.flatten_cons]
  exact congrArg _ (List.append_cancel_left hbody)

theorem Value.length_flatten_runs (v : Value) : v.runs.flatten.length = v.encodedSize := by
  rw [flatten_runs, List.length_append, Width.length_encode, length_body]
  rfl

namespace AppendBuffer

variable {b b' : AppendBuffer}

/-- A patch changes neither how much was written nor the capacity. -/
theorem size_patch {offset : UInt64} {value : BitVec 32} (h : b.patch offset value = .ok b') :
    b'.written.size = b.written.size ∧ b'.capacity = b.capacity := by
  obtain ⟨hend, rfl⟩ := eq_patchAt_of_patch h
  exact ⟨size_patchAt hend, rfl⟩

/-- Taking a frame out moves the start to the end of what was written. How much that is and the
capacity stay. -/
theorem takeFramed_snd (b : AppendBuffer) :
    b.takeFramed.2.start = b.written.size ∧ b.takeFramed.2.written.size = b.written.size ∧
      b.takeFramed.2.capacity = b.capacity := by
  rw [takeFramed]
  split
  · cases hpatch : b.patch 0 (BitVec.ofNat 32 b.length) with
    | error => exact ⟨rfl, rfl, rfl⟩
    | ok b' =>
      obtain ⟨hsize, hcapacity⟩ := size_patch hpatch
      exact ⟨hsize, hsize, hcapacity⟩
  · exact ⟨rfl, rfl, rfl⟩

end AppendBuffer

/-- **The size of a value is exact, and is all the room that encoding it needs.**

* If the size fits the header, it is the length of the serialized value and what its header
  declares, and every buffer encodes the value to these bytes. The position of such a buffer is a
  machine word, as all positions are.
* Encoding resets the buffer, appends the runs of the value, and takes the frame out. In a buffer
  with room for the size of the value, no run has to make room. In the end the buffer has the
  capacity that it started with, and all of it was written. -/
theorem encodedSize_exact (v : Value) :
    (v.encodedSize ≤ 0xffff_ffff → ∃ bytes, serialize v = .ok bytes ∧
      bytes.length = v.encodedSize ∧ (declaredSize bytes).toNat = v.encodedSize ∧
      ∀ b : AppendBuffer, b.written.size < 0x1_0000_0000_0000_0000 → (b.encode v).1 = .ok bytes) ∧
    (∀ b : AppendBuffer, b.encode v = (b.reset.appendAll v.runs).takeFramed) ∧
    let b := AppendBuffer.empty v.encodedSize
    (∀ done run rest, v.runs = done ++ run :: rest →
      (b.reset.appendAll done).reserve run.length = b.reset.appendAll done) ∧
    (b.encode v).2.capacity = v.encodedSize ∧ (b.encode v).2.written.size = v.encodedSize ∧
    (b.encode v).2.start = v.encodedSize := by
  refine ⟨fun hsize => ?_, fun b => b.encode_eq_appendAll v, ?_⟩
  · have hsize' : v.encodedSize < 0x1_0000_0000 := Nat.lt_succ_of_le hsize
    have hlength : (frame v.body).length = v.encodedSize := by
      rw [length_frame, Value.length_body, Value.encodedSize]
    refine ⟨frame v.body, serialize_eq_ok_iff.2 ⟨hsize', rfl⟩, hlength, ?_, fun b hb => ?_⟩
    · rw [declaredSize_frame (length_body_lt hsize'), hlength]
    · rw [AppendBuffer.encode_eq hb, if_pos hsize']
  · intro b
    have hroom : v.runs.flatten.length ≤ b.room := Nat.le_of_eq v.length_flatten_runs
    -- Nothing was written to the buffer yet, so there is nothing to forget.
    have hreset : b.reset = b := rfl
    have hfills := AppendBuffer.fills_appendAll hroom
    have hfull : (b.appendAll v.runs).written.size = v.encodedSize := by
      rw [hfills.size, v.length_flatten_runs]
      exact Nat.zero_add _
    obtain ⟨hstart, hsize, hcapacity⟩ := (b.appendAll v.runs).takeFramed_snd
    rw [AppendBuffer.encode_eq_appendAll, hreset]
    refine ⟨fun done run rest hruns => AppendBuffer.reserve_appendAll hruns hroom, ?_, ?_, ?_⟩
    · rw [hcapacity, hfills.capacity]
      rfl
    · rw [hsize, hfull]
    · rw [hstart, hfull]

/-- An array with a text and an object takes nineteen bytes. A buffer with room for these does not
grow, neither before the last run nor before another one. One that lacks a byte grows before the
last run, to twice as many. -/
theorem encodedSize_exact_nested :
    let v : Value := .array [.int 5, .text "ab", .object [("k", .uint 300)]]
    let front : List (List UInt8) := [[0, 0, 0, 0], [0x0e], [3], [0x06], [5], [0x0c], [2],
      [0x61, 0x62], [0x0f], [1], [1], [0x6b], [0x07]]
    let last : List UInt8 := [0x2c, 1]
    (v.encodedSize = 19 ∧ v.encodedSize ≤ 0xffff_ffff ∧ v.runs = front ++ [last]) ∧
    (∃ bytes, serialize v = .ok bytes ∧ bytes.length = 19 ∧ (declaredSize bytes).toNat = 19 ∧
      ((AppendBuffer.empty 18).encode v).1 = .ok bytes) ∧
    ((AppendBuffer.empty 19).reset.appendAll front).reserve last.length =
      (AppendBuffer.empty 19).reset.appendAll front ∧
    ((AppendBuffer.empty 19).encode v).2.capacity = 19 ∧
    ((AppendBuffer.empty 19).encode v).2.written.size = 19 ∧
    ((AppendBuffer.empty 18).reset.appendAll front).capacity = 18 ∧
    ((AppendBuffer.empty 18).encode v).2.capacity = 38 := by
  intro v front last
  have hnineteen : v.encodedSize = 19 := by decide
  have hsize : v.encodedSize ≤ 0xffff_ffff := by decide
  have hruns : v.runs = front ++ [last] := by decide
  obtain ⟨hbytes, -, hroom, hcapacity, hfull, -⟩ := encodedSize_exact v
  obtain ⟨bytes, hserialize, hlength, hdeclared, hany⟩ := hbytes hsize
  rw [hnineteen] at hlength hdeclared hroom hcapacity hfull
  have hshort := hany (AppendBuffer.empty 18) (Nat.two_pow_pos 64)
  have hlast := hroom front last [] hruns
  refine ⟨⟨hnineteen, hsize, hruns⟩, ⟨bytes, hserialize, hlength, hdeclared, hshort⟩, hlast,
    hcapacity, hfull, ?_, ?_⟩
  · decide
  · decide

end WireTree
