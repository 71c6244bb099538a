import WireTree.Builder

/-!
# Call logs

A builder that writes down what it is asked to do.

* Nodes are numbers, given out in the order in which nodes are made.
* Every operation leaves one `Call` in the log.
* `Builder.callLog true` writes unsigned 64-bit numbers down as such; `Builder.callLog false` knows
  signed numbers only.
-/

namespace WireTree

/-- One operation of a builder. The first number is the node it makes or changes. -/
inductive Call where
  | null (node : Nat)
  | bool (node : Nat) (b : Bool)
  | integer (node : Nat) (n : Int64)
  | uinteger (node : Nat) (n : UInt64)
  | real (node : Nat) (x : Binary64)
  | text (node : Nat) (s : String)
  | bytes (node : Nat) (bs : List UInt8)
  | array (node : Nat) (capacity : Nat)
  | append (node : Nat) (element : Nat)
  | object (node : Nat) (capacity : Nat)
  | set (node : Nat) (key : String) (value : Nat)
  deriving DecidableEq, Repr

/-- The operations so far, and the number of the next node. -/
structure CallLog where
  next : Nat := 0
  calls : Array Call := #[]

namespace CallLog

/-- Makes a node and writes down how. -/
def make (call : Nat → Call) : CallLog → Nat × CallLog
  | ⟨next, calls⟩ => (next, ⟨next + 1, calls.push (call next)⟩)

/-- Writes down a change to a node. -/
def change (node : Nat) (call : Call) : CallLog → Nat × CallLog
  | ⟨next, calls⟩ => (node, ⟨next, calls.push call⟩)

end CallLog

/-- Writes down every operation. -/
def Builder.callLog (unsigned : Bool) : Builder CallLog Nat where
  null := CallLog.make .null
  bool := fun b => CallLog.make (.bool · b)
  integer := fun n => CallLog.make (.integer · n)
  uinteger := fun n =>
    if unsigned then CallLog.make (.uinteger · n) else CallLog.make (.integer · n.toInt64)
  real := fun x => CallLog.make (.real · x)
  text := fun s => CallLog.make (.text · s)
  bytes := fun bs => CallLog.make (.bytes · bs)
  array := fun capacity => CallLog.make (.array · capacity)
  append := fun array element => CallLog.change array (.append array element)
  object := fun capacity => CallLog.make (.object · capacity)
  set := fun object key value => CallLog.change object (.set object key value)

end WireTree
