import WireTree.Real.Binary

/-!
# Builders

The reader of buffers knows the wire form, and a builder knows what is to become of it.

* A `Builder σ ν` has one operation per kind of item. An operation may change the builder's own
  state `σ` and gives a node `ν`.
* Children are built before they are handed to their parent, by `append` or `set`. Both give the
  parent node back as it is then.
* A builder that leaves out `uinteger` gets unsigned 64-bit numbers as signed numbers of the same
  bits.
* `Builder.skip` builds nothing, which is all that a check needs.
-/

namespace WireTree

/-- What becomes of the items of a buffer. -/
structure Builder (σ ν : Type) where
  null : σ → ν × σ
  bool : Bool → σ → ν × σ
  integer : Int64 → σ → ν × σ
  /-- Takes the payload of the unsigned 64-bit kind. -/
  uinteger : UInt64 → σ → ν × σ := fun n => integer n.toInt64
  real : Binary64 → σ → ν × σ
  text : String → σ → ν × σ
  bytes : List UInt8 → σ → ν × σ
  /-- Starts an array for which a number of elements is announced. -/
  array : Nat → σ → ν × σ
  /-- Puts an element behind those that an array has. -/
  append : ν → ν → σ → ν × σ
  /-- Starts an object for which a number of pairs is announced. -/
  object : Nat → σ → ν × σ
  /-- Gives a key of an object its value. -/
  set : ν → String → ν → σ → ν × σ

namespace Builder

/-- Builds nothing. -/
def skip : Builder Unit Unit where
  null := fun _ => ((), ())
  bool := fun _ _ => ((), ())
  integer := fun _ _ => ((), ())
  uinteger := fun _ _ => ((), ())
  real := fun _ _ => ((), ())
  text := fun _ _ => ((), ())
  bytes := fun _ _ => ((), ())
  array := fun _ _ => ((), ())
  append := fun _ _ _ => ((), ())
  object := fun _ _ => ((), ())
  set := fun _ _ _ _ => ((), ())

end Builder

end WireTree
