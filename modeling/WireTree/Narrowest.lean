import WireTree.Real.Binary
import WireTree.Tag

/-!
# Narrowest kinds

Numbers are written in the narrowest kind that holds them.

* A whole number that is not negative takes an unsigned kind, and a negative one a signed kind.
* A real takes 32 bits if that says exactly the same number. What is not a number takes 64 bits.
-/

namespace WireTree

/-- The narrowest word for an unsigned number. -/
def Width.ofUInt (n : UInt64) : Width :=
  if n.toNat < 0x100 then .w8
  else if n.toNat < 0x1_0000 then .w16
  else if n.toNat < 0x1_0000_0000 then .w32
  else .w64

/-- The narrowest word for a negative number in two's complement. -/
def Width.ofNegative (n : Int64) : Width :=
  if -0x80 ≤ n.toInt then .w8
  else if -0x8000 ≤ n.toInt then .w16
  else if -0x8000_0000 ≤ n.toInt then .w32
  else .w64

namespace Tag

/-- The narrowest kind for an unsigned number. -/
def ofUInt (n : UInt64) : Tag :=
  .uint (.ofUInt n)

/-- The narrowest kind for a signed number. -/
def ofInt (n : Int64) : Tag :=
  if 0 ≤ n.toInt then .ofUInt n.toUInt64 else .int (.ofNegative n)

/-- The narrowest kind for a real. -/
def ofReal (x : Binary64) : Tag :=
  if x.narrow?.isSome then .single else .double

end Tag

end WireTree
