import WireTree.Value

/-!
# Equality of values

When two values count as equal.

* Integers compare by number, whichever kind holds them.
* Reals compare numerically, so the two zeros are equal and what is not a number equals nothing.
* Arrays compare element by element. Objects compare without order: they are equally many fields,
  and every key of one has an equal value in the other.
* Values of other kinds are never equal to each other.
-/

namespace WireTree.Value

mutual

/-- Whether two values count as equal. -/
def equals : Value → Value → Bool
  | null, null => true
  | bool a, bool b => a == b
  | int a, int b => a == b
  | uint a, uint b => a == b
  | int i, uint u => i.toInt == (u.toNat : Int)
  | uint u, int i => i.toInt == (u.toNat : Int)
  | real a, real b => a.equals b
  | text a, text b => a == b
  | bytes a, bytes b => a == b
  | array a, array b => equalItems a b
  | object a, object b => a.length == b.length && equalFields a b
  | _, _ => false

/-- Whether two lists are equally long and equal in every place. -/
def equalItems : List Value → List Value → Bool
  | [], [] => true
  | v :: vs, w :: ws => v.equals w && equalItems vs ws
  | _, _ => false

/-- Whether every key of the first fields has an equal value in the second. -/
def equalFields : List (String × Value) → List (String × Value) → Bool
  | [], _ => true
  | (k, v) :: rest, fields =>
    (match Fields.find? k fields with
      | some w => v.equals w
      | none => false) && equalFields rest fields

end

end WireTree.Value
