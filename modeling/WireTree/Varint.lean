import WireTree.AppendBuffer
import WireTree.Cursor

/-!
# Variable-width numbers

Lengths and counts are 64-bit numbers in one of four forms.

* A first byte up to `0xfc` is the number itself.
* The markers `0xfd`, `0xfe` and `0xff` announce a word of two, four or eight bytes.
* Writing takes the narrowest form (`narrowest?`). Reading takes any form, so a number may be
  padded on the wire.

Results:
* `length_encode`: `size` is the number of bytes written.
* `ofMarker?_marker`: every marker announces its own width.
-/

namespace WireTree.Varint

/-- The largest number that its first byte holds. -/
def directMax : UInt64 := 0xfc

/-- The word that a first byte announces, if it is not the number itself. -/
def ofMarker? (b : UInt8) : Option Width :=
  if b = 0xfd then some .w16
  else if b = 0xfe then some .w32
  else if b = 0xff then some .w64
  else none

/-- The first byte that announces a word. No form announces a word of one byte; such a number is
its own first byte. -/
def marker : Width → UInt8
  | .w8 => 0
  | .w16 => 0xfd
  | .w32 => 0xfe
  | .w64 => 0xff

/-- The word that the narrowest form of a number announces, if any. -/
def narrowest? (n : UInt64) : Option Width :=
  if n ≤ directMax then none
  else if n ≤ 0xffff then some .w16
  else if n ≤ 0xffffffff then some .w32
  else some .w64

/-- The number of bytes of the narrowest form. -/
def size (n : UInt64) : Nat :=
  if n ≤ directMax then 1
  else if n ≤ 0xffff then 3
  else if n ≤ 0xffffffff then 5
  else 9

/-- The narrowest form of a number. -/
def encode (n : UInt64) : List UInt8 :=
  match narrowest? n with
  | none => [n.toUInt8]
  | some w => marker w :: w.encode (n.toBitVec.setWidth w.bits)

/-- Reads a number in any form. If a marker was read and its word is missing, the cursor stays
behind the marker. -/
def read : Cursor.Read UInt64 := do
  let first ← Cursor.byte
  match ofMarker? first with
  | none => return first.toUInt64
  | some w => return UInt64.ofBitVec ((← Cursor.word w).setWidth 64)

/-- Every marker announces its own width. -/
theorem ofMarker?_marker {w : Width} (h : w ≠ .w8) : ofMarker? (marker w) = some w := by
  cases w
  · exact absurd rfl h
  all_goals rfl

/-- The stated size is the number of bytes written. -/
theorem length_encode (n : UInt64) : (encode n).length = size n := by
  unfold encode narrowest? size
  by_cases h₁ : n ≤ directMax
  · simp [h₁]
  by_cases h₂ : n ≤ 0xffff
  · simp [h₁, h₂, Width.bytes]
  by_cases h₃ : n ≤ 0xffffffff
  · simp [h₁, h₂, h₃, Width.bytes]
  · simp [h₁, h₂, h₃, Width.bytes]

end WireTree.Varint

namespace WireTree.AppendBuffer

/-- Writes the narrowest form of a number: its first byte, then the announced word. -/
def varint (b : AppendBuffer) (n : UInt64) : AppendBuffer :=
  match Varint.narrowest? n with
  | none => b.append [n.toUInt8]
  | some w => (b.append [Varint.marker w]).append (w.encode (n.toBitVec.setWidth w.bits))

@[simp] theorem pending_varint (b : AppendBuffer) (n : UInt64) :
    (b.varint n).pending = b.pending ++ Varint.encode n := by
  unfold varint Varint.encode
  split <;> simp

end WireTree.AppendBuffer
