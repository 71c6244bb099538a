import WireTree.Header
import WireTree.Narrowest
import WireTree.Value
import WireTree.Varint

/-!
# Size of values

How many bytes a value takes on the wire, found without writing it.

* A value takes its tag byte and its payload. Text, bytes and keys take a count and their bytes, and
  containers take a count and what they hold.
* `Value.encodedSize` is the size of a whole buffer, header included.
-/

namespace WireTree

/-- The length of the payload of a kind, and zero for kinds that do not fix it. -/
def Tag.payloadWidth (t : Tag) : Nat :=
  t.width?.getD 0

/-- The size of a count and as many bytes. -/
def countedSize (length : Nat) : Nat :=
  Varint.size (UInt64.ofNat length) + length

namespace Value

mutual

/-- The size of a value, tag included. -/
def size : Value → Nat
  | null => 1
  | bool _ => 2
  | int n => 1 + (Tag.ofInt n).payloadWidth
  | uint n => 1 + (Tag.ofUInt n).payloadWidth
  | real x => 1 + (Tag.ofReal x).payloadWidth
  | text s => 1 + countedSize s.utf8ByteSize
  | bytes bs => 1 + countedSize bs.length
  | array items => 1 + Varint.size (UInt64.ofNat items.length) + itemsSize 0 items
  | object fields => 1 + Varint.size (UInt64.ofNat fields.length) + fieldsSize 0 fields

/-- The size of values one after the other, added to what comes before them. -/
def itemsSize (before : Nat) : List Value → Nat
  | [] => before
  | v :: vs => itemsSize (before + v.size) vs

/-- The size of pairs one after the other, added to what comes before them. -/
def fieldsSize (before : Nat) : List (String × Value) → Nat
  | [] => before
  | (k, v) :: rest => fieldsSize (before + countedSize k.utf8ByteSize + v.size) rest

end

/-- The size of the whole buffer for a value. -/
def encodedSize (v : Value) : Nat :=
  headerSize + v.size

end Value

end WireTree
