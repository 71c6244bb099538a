import WireTree.LittleEndian

/-!
# Tags

Every value on the wire starts with a tag byte that names its kind.

* `Tag` are the sixteen kinds: null, booleans, signed and unsigned integers of each width, reals of
  two widths, text, bytes, arrays and objects.
* `Tag.toByte` and `Tag.ofByte?` relate kinds and bytes. The bytes from `0x10` on name no kind.
* `Tag.width?` is the length of the payload where the kind alone decides it.

Results:
* `ofByte?_toByte`, `toByte_of_ofByte?`: the two directions are inverse to each other.
-/

namespace WireTree

/-- The kind of a value. -/
inductive Tag where
  | null
  | bool
  | int (w : Width)
  | uint (w : Width)
  | single
  | double
  | text
  | bytes
  | array
  | object
  deriving DecidableEq, Repr

namespace Tag

/-- The tag byte of a kind. -/
def toByte : Tag → UInt8
  | null => 0x00
  | bool => 0x01
  | int .w8 => 0x02
  | int .w16 => 0x03
  | int .w32 => 0x04
  | int .w64 => 0x05
  | uint .w8 => 0x06
  | uint .w16 => 0x07
  | uint .w32 => 0x08
  | uint .w64 => 0x09
  | single => 0x0a
  | double => 0x0b
  | text => 0x0c
  | bytes => 0x0d
  | array => 0x0e
  | object => 0x0f

/-- The kind that a tag byte names. -/
def ofByte? (b : UInt8) : Option Tag :=
  match b.toNat with
  | 0x00 => some null
  | 0x01 => some bool
  | 0x02 => some (int .w8)
  | 0x03 => some (int .w16)
  | 0x04 => some (int .w32)
  | 0x05 => some (int .w64)
  | 0x06 => some (uint .w8)
  | 0x07 => some (uint .w16)
  | 0x08 => some (uint .w32)
  | 0x09 => some (uint .w64)
  | 0x0a => some single
  | 0x0b => some double
  | 0x0c => some text
  | 0x0d => some bytes
  | 0x0e => some array
  | 0x0f => some object
  | _ => none

/-- The length of the payload, for the kinds that fix it. -/
def width? : Tag → Option Nat
  | null => some 0
  | bool => some 1
  | int w => some w.bytes
  | uint w => some w.bytes
  | single => some 4
  | double => some 8
  | text => none
  | bytes => none
  | array => none
  | object => none

/-- Whether values of this kind hold other values. -/
def isContainer : Tag → Bool
  | array => true
  | object => true
  | _ => false

/-- The name of a kind. -/
def name : Tag → String
  | null => "null"
  | bool => "bool"
  | int .w8 => "int8"
  | int .w16 => "int16"
  | int .w32 => "int32"
  | int .w64 => "int64"
  | uint .w8 => "uint8"
  | uint .w16 => "uint16"
  | uint .w32 => "uint32"
  | uint .w64 => "uint64"
  | single => "float"
  | double => "double"
  | text => "string"
  | bytes => "bytes"
  | array => "array"
  | object => "object"

@[simp] theorem ofByte?_toByte (t : Tag) : ofByte? t.toByte = some t := by
  cases t with
  | int w => cases w <;> rfl
  | uint w => cases w <;> rfl
  | _ => rfl

theorem toByte_of_ofByte? {b : UInt8} {t : Tag} (h : ofByte? b = some t) : t.toByte = b := by
  unfold ofByte? at h
  split at h <;> first
    | (cases h; apply UInt8.toNat_inj.1; simp only [toByte]; simp_all)
    | cases h

end Tag

end WireTree
