import WireTree.Fields
import WireTree.Real.Binary

/-!
# Values

The trees that buffers stand for.

* Integers are kept as signed 64-bit numbers. `Value.uint` is for those that do not fit, although
  it can hold any unsigned number; `Value.ofUInt` makes the choice.
* Reals are 64-bit patterns and bytes are kept apart from text.
* An object is a list of pairs in visible order. The library only builds objects with distinct keys.
* The accessors answer with the content of a value of the right kind. Both integer kinds answer to
  `asInt?` and `asUInt?` as long as the number fits.
-/

namespace WireTree

/-- A tree of JSON-like data, with bytes besides text and full 64-bit numbers. -/
inductive Value where
  | null
  | bool (b : Bool)
  | int (n : Int64)
  | uint (n : UInt64)
  | real (x : Binary64)
  | text (s : String)
  | bytes (bs : List UInt8)
  | array (items : List Value)
  | object (fields : List (String × Value))

namespace Value

instance : Inhabited Value := ⟨null⟩

/-- An unsigned number, kept as a signed one if it fits. -/
def ofUInt (n : UInt64) : Value :=
  if n.toNat < 0x8000_0000_0000_0000 then int n.toInt64 else uint n

/-- The object that results from inserting pairs in order. -/
def ofPairs (pairs : List (String × Value)) : Value :=
  object (Fields.ofList pairs)

/-- Whether the value is null. -/
def isNull : Value → Bool
  | null => true
  | _ => false

/-- The truth value. -/
def asBool? : Value → Option Bool
  | bool b => some b
  | _ => none

/-- The integer, if it fits a signed number. -/
def asInt? : Value → Option Int64
  | int n => some n
  | uint n => if n.toNat < 0x8000_0000_0000_0000 then some n.toInt64 else none
  | _ => none

/-- The integer, if it fits an unsigned number. -/
def asUInt? : Value → Option UInt64
  | int n => if 0 ≤ n.toInt then some n.toUInt64 else none
  | uint n => some n
  | _ => none

/-- The real. -/
def asReal? : Value → Option Binary64
  | real x => some x
  | _ => none

/-- The text. -/
def asText? : Value → Option String
  | text s => some s
  | _ => none

/-- The bytes. -/
def asBytes? : Value → Option (List UInt8)
  | bytes bs => some bs
  | _ => none

/-- The elements of an array. -/
def asArray? : Value → Option (List Value)
  | array items => some items
  | _ => none

/-- The pairs of an object. -/
def asObject? : Value → Option (List (String × Value))
  | object fields => some fields
  | _ => none

/-- The value of a key of an object. -/
def get? (v : Value) (key : String) : Option Value :=
  v.asObject?.bind (Fields.find? key)

end Value

end WireTree
