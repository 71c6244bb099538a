import WireTree.DataUri
import WireTree.Value

/-!
# JSON trees

What JSON can say, and how it relates to values.

* A JSON number is either a whole number that fits 64 bits, signed or unsigned, or a finite real.
  The types `WholeNumber` and `FiniteReal` hold nothing else.
* `Json.ofValue` writes bytes as data URIs and reals without a JSON form as null.
* `Value.ofJson` takes texts that are data URIs for bytes, and a whole number for a signed integer
  whenever it fits.
-/

namespace WireTree

/-- A whole number that fits 64 bits, signed or unsigned. -/
structure WholeNumber where
  val : Int
  lower : -0x8000_0000_0000_0000 ≤ val
  upper : val < 0x1_0000_0000_0000_0000
  deriving DecidableEq

/-- A real that is neither infinite nor not a number. -/
structure FiniteReal where
  val : Binary64
  finite : val.isFinite = true
  deriving DecidableEq

/-- A JSON tree. -/
inductive Json where
  | null
  | bool (b : Bool)
  | whole (n : WholeNumber)
  | real (x : FiniteReal)
  | text (s : String)
  | array (items : List Json)
  | object (fields : List (String × Json))

namespace WholeNumber

/-- A signed integer as a whole number. -/
def ofInt (n : Int64) : WholeNumber where
  val := n.toInt
  lower := n.le_toInt
  upper := by
    have := n.toInt_lt
    omega

/-- An unsigned integer as a whole number. -/
def ofUInt (n : UInt64) : WholeNumber where
  val := n.toNat
  lower := by omega
  upper := by
    have := n.toNat_lt
    omega

/-- A whole number as a value: a signed integer if it fits, and else an unsigned one. -/
def toValue (n : WholeNumber) : Value :=
  if n.val < 0x8000_0000_0000_0000 then .int (Int64.ofInt n.val)
  else .uint (UInt64.ofNat n.val.toNat)

end WholeNumber

namespace Json

instance : Inhabited Json := ⟨null⟩

/-- A real as JSON: null if it is infinite or not a number. -/
def ofReal (x : Binary64) : Json :=
  if h : x.isFinite = true then real ⟨x, h⟩ else null

mutual

/-- The JSON tree for a value. -/
def ofValue : Value → Json
  | .null => null
  | .bool b => bool b
  | .int n => whole (.ofInt n)
  | .uint n => whole (.ofUInt n)
  | .real x => ofReal x
  | .text s => text s
  | .bytes bs => text (DataUri.encode bs)
  | .array items => array (ofItems items)
  | .object fields => object (ofFields fields)

/-- The JSON trees for the elements of an array. -/
def ofItems : List Value → List Json
  | [] => []
  | v :: vs => ofValue v :: ofItems vs

/-- The JSON trees for the fields of an object. -/
def ofFields : List (String × Value) → List (String × Json)
  | [] => []
  | (k, v) :: rest => (k, ofValue v) :: ofFields rest

end

end Json

namespace Value

/-- A text as a value: bytes if it is a data URI, and else a text. -/
def ofText (s : String) : Value :=
  match DataUri.decode? s with
  | some bs => bytes bs
  | none => text s

mutual

/-- The value for a JSON tree. -/
def ofJson : Json → Value
  | .null => null
  | .bool b => bool b
  | .whole n => n.toValue
  | .real x => real x.val
  | .text s => ofText s
  | .array items => array (ofJsonItems items)
  | .object fields => object (ofJsonFields fields)

/-- The values for the elements of a JSON array. -/
def ofJsonItems : List Json → List Value
  | [] => []
  | j :: js => ofJson j :: ofJsonItems js

/-- The values for the fields of a JSON object. -/
def ofJsonFields : List (String × Json) → List (String × Value)
  | [] => []
  | (k, j) :: rest => (k, ofJson j) :: ofJsonFields rest

end

end Value

end WireTree
