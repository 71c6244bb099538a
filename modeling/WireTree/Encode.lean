import WireTree.Error
import WireTree.Item
import WireTree.Json
import WireTree.Narrowest
import WireTree.Value.Size

/-!
# Encoding

Values and JSON trees are written to an append buffer, piece by piece.

* `putNull`, `putBool` and their kin write one value, or the head of a container whose elements
  follow. `putKey` writes a text without a tag.
* `putValue` and `putJson` write whole trees. A JSON text that is a data URI is written as bytes.
* `encode` and `encodeJson` write a whole buffer: what was pending before is forgotten, a header of
  zero is written, then the tree, and at last the size is patched into the header.
* `serialize` encodes a value with a buffer of exactly the right size.
-/

namespace WireTree

namespace AppendBuffer

/-- Writes a tag byte. -/
def putTag (b : AppendBuffer) (t : Tag) : AppendBuffer :=
  b.put (.unsigned .w8 t.toByte.toBitVec)

@[simp] theorem pending_putTag (b : AppendBuffer) (t : Tag) :
    (b.putTag t).pending = b.pending ++ [t.toByte] := by
  rw [putTag, pending_put, Item.encode]
  congr 1
  cases t with
  | int w => cases w <;> rfl
  | uint w => cases w <;> rfl
  | _ => rfl

/-- Writes a null. -/
def putNull (b : AppendBuffer) : AppendBuffer :=
  b.putTag .null

/-- Writes a truth value. -/
def putBool (b : AppendBuffer) (x : Bool) : AppendBuffer :=
  (b.putTag .bool).put (.unsigned .w8 (if x then 1 else 0))

/-- Writes an unsigned integer in its narrowest kind. -/
def putUInt (b : AppendBuffer) (n : UInt64) : AppendBuffer :=
  let w := Width.ofUInt n
  (b.putTag (.uint w)).put (.unsigned w (n.toBitVec.setWidth w.bits))

/-- Writes a signed integer in its narrowest kind. -/
def putInt (b : AppendBuffer) (n : Int64) : AppendBuffer :=
  if 0 ≤ n.toInt then b.putUInt n.toUInt64
  else
    let w := Width.ofNegative n
    (b.putTag (.int w)).put (.signed w (n.toBitVec.setWidth w.bits))

/-- Writes a real in its narrowest kind. -/
def putReal (b : AppendBuffer) (x : Binary64) : AppendBuffer :=
  match x.narrow? with
  | some y => (b.putTag .single).put (.single y)
  | none => (b.putTag .double).put (.double x)

/-- Writes a text without a tag. -/
def putKey (b : AppendBuffer) (s : String) : AppendBuffer :=
  (b.put (.varint (UInt64.ofNat s.utf8ByteSize))).put (.text s)

/-- Writes a text. -/
def putText (b : AppendBuffer) (s : String) : AppendBuffer :=
  (b.putTag .text).putKey s

/-- Writes bytes. -/
def putBytes (b : AppendBuffer) (bs : List UInt8) : AppendBuffer :=
  ((b.putTag .bytes).put (.varint (UInt64.ofNat bs.length))).put (.bytes bs)

/-- Writes the head of an array of `n` elements. -/
def putArrayHead (b : AppendBuffer) (n : Nat) : AppendBuffer :=
  (b.putTag .array).put (.varint (UInt64.ofNat n))

/-- Writes the head of an object of `n` pairs. -/
def putObjectHead (b : AppendBuffer) (n : Nat) : AppendBuffer :=
  (b.putTag .object).put (.varint (UInt64.ofNat n))

mutual

/-- Writes a value. -/
def putValue (b : AppendBuffer) : Value → AppendBuffer
  | .null => b.putNull
  | .bool x => b.putBool x
  | .int n => b.putInt n
  | .uint n => b.putUInt n
  | .real x => b.putReal x
  | .text s => b.putText s
  | .bytes bs => b.putBytes bs
  | .array items => putValues (b.putArrayHead items.length) items
  | .object fields => putValueFields (b.putObjectHead fields.length) fields

/-- Writes values one after the other. -/
def putValues (b : AppendBuffer) : List Value → AppendBuffer
  | [] => b
  | v :: vs => putValues (putValue b v) vs

/-- Writes pairs of a key and a value one after the other. -/
def putValueFields (b : AppendBuffer) : List (String × Value) → AppendBuffer
  | [] => b
  | (k, v) :: rest => putValueFields (putValue (b.putKey k) v) rest

end

/-- Writes a whole number: as a signed integer if it fits, and else as an unsigned one. -/
def putWhole (b : AppendBuffer) (n : WholeNumber) : AppendBuffer :=
  if n.val < 0x8000_0000_0000_0000 then b.putInt (Int64.ofInt n.val)
  else b.putUInt (UInt64.ofNat n.val.toNat)

mutual

/-- Writes a JSON tree. -/
def putJson (b : AppendBuffer) : Json → AppendBuffer
  | .null => b.putNull
  | .bool x => b.putBool x
  | .whole n => b.putWhole n
  | .real x => b.putReal x.val
  | .text s =>
    match DataUri.decode? s with
    | some bs => b.putBytes bs
    | none => b.putText s
  | .array items => putJsons (b.putArrayHead items.length) items
  | .object fields => putJsonFields (b.putObjectHead fields.length) fields

/-- Writes JSON trees one after the other. -/
def putJsons (b : AppendBuffer) : List Json → AppendBuffer
  | [] => b
  | j :: js => putJsons (putJson b j) js

/-- Writes pairs of a key and a JSON tree one after the other. -/
def putJsonFields (b : AppendBuffer) : List (String × Json) → AppendBuffer
  | [] => b
  | (k, j) :: rest => putJsonFields (putJson (b.putKey k) j) rest

end

/-- Starts a buffer of its own: forgets what is pending and writes a header of zero. -/
def putHeader (b : AppendBuffer) : AppendBuffer :=
  b.reset.put (.unsigned .w32 0)

/-- Patches the size into the header and takes everything out. A size that the header cannot hold
is an error, and what was written is forgotten. -/
def takeFramed (b : AppendBuffer) : Except EncodeError (List UInt8) × AppendBuffer :=
  if b.length < 0x1_0000_0000 then
    let patched := (b.patch 0 (BitVec.ofNat 32 b.length)).toOption.getD b
    (.ok patched.flush.1, patched.flush.2)
  else (.error (.tooLarge b.length), b.reset)

/-- Encodes a value. -/
def encode (b : AppendBuffer) (v : Value) : Except EncodeError (List UInt8) × AppendBuffer :=
  (b.putHeader.putValue v).takeFramed

/-- Encodes a JSON tree. -/
def encodeJson (b : AppendBuffer) (j : Json) : Except EncodeError (List UInt8) × AppendBuffer :=
  (b.putHeader.putJson j).takeFramed

end AppendBuffer

/-- The buffer for a value. -/
def serialize (v : Value) : Except EncodeError (List UInt8) :=
  ((AppendBuffer.empty v.encodedSize).encode v).1

end WireTree
