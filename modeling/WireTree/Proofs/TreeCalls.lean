import WireTree.Proofs.CallOrder
import WireTree.Proofs.WalkGrammar

/-!
# The calls for a tree

What a builder is asked to do for a tree, in order.

* `Wire.calls unsigned t k` are the calls for a tree, of which the nodes are numbered from `k` on:
  that for a container first, and then, for each member, its own calls and that which puts it in.
* `CallLog.extend` goes on with a log by more calls.

Results:
* `Wire.whole_calls`: they are the calls for a whole node.
* **`Wire.build_callLog`**: a log goes on by just these if the tree is built.
-/

namespace WireTree

open CallLog

namespace Wire

mutual

/-- The number of nodes that a builder makes of a tree. -/
def nodes : Wire → Nat
  | array items => itemsNodes items + 1
  | object pairs => pairsNodes pairs + 1
  | _ => 1

/-- The number of nodes for the elements of an array. -/
def itemsNodes : List Wire → Nat
  | [] => 0
  | t :: ts => t.nodes + itemsNodes ts

/-- The number of nodes for the values of an object. -/
def pairsNodes : List (String × Wire) → Nat
  | [] => 0
  | (_, t) :: ts => t.nodes + pairsNodes ts

end

mutual

/-- The calls for a tree, of which the first node has the number `k`. -/
def calls (unsigned : Bool) : Wire → Nat → List Call
  | null, k => [.null k]
  | bool b, k => [.bool k b]
  | integer n, k => [.integer k n]
  | uinteger n, k => [if unsigned then .uinteger k n else .integer k n.toInt64]
  | real x, k => [.real k x]
  | text s, k => [.text k s]
  | bytes bs, k => [.bytes k bs]
  | array items, k => [.array k items.length] ++ itemsCalls unsigned k items (k + 1)
  | object pairs, k => [.object k pairs.length] ++ pairsCalls unsigned k pairs (k + 1)

/-- The calls for the elements of the array `c`. -/
def itemsCalls (unsigned : Bool) (c : Nat) : List Wire → Nat → List Call
  | [], _ => []
  | t :: ts, k =>
    t.calls unsigned k ++ ([.append c k] ++ itemsCalls unsigned c ts (k + t.nodes))

/-- The calls for the pairs of the object `c`. -/
def pairsCalls (unsigned : Bool) (c : Nat) : List (String × Wire) → Nat → List Call
  | [], _ => []
  | (key, t) :: ts, k =>
    t.calls unsigned k ++ ([.set c key k] ++ pairsCalls unsigned c ts (k + t.nodes))

end

mutual

/-- The calls for a tree are those for a whole node. -/
theorem whole_calls (unsigned : Bool) :
    ∀ (t : Wire) (k : Nat), Whole k (t.calls unsigned k) (k + t.nodes)
  | null, _ => .scalar rfl rfl
  | bool _, _ => .scalar rfl rfl
  | integer _, _ => .scalar rfl rfl
  | uinteger _, _ => by cases unsigned <;> exact .scalar rfl rfl
  | real _, _ => .scalar rfl rfl
  | text _, _ => .scalar rfl rfl
  | bytes _, _ => .scalar rfl rfl
  | array items, k => by
    have h := members_itemsCalls unsigned k items (k + 1)
    rw [Nat.add_right_comm] at h
    exact .container rfl h
  | object pairs, k => by
    have h := members_pairsCalls unsigned k pairs (k + 1)
    rw [Nat.add_right_comm] at h
    exact .container rfl h

theorem members_itemsCalls (unsigned : Bool) (c : Nat) : ∀ (ts : List Wire) (k : Nat),
    Members c ts.length k (itemsCalls unsigned c ts k) (k + itemsNodes ts)
  | [], _ => .nil
  | t :: ts, k => by
    have h := members_itemsCalls unsigned c ts (k + t.nodes)
    rw [Nat.add_assoc] at h
    exact .cons (whole_calls unsigned t k) rfl h

theorem members_pairsCalls (unsigned : Bool) (c : Nat) : ∀ (ts : List (String × Wire)) (k : Nat),
    Members c ts.length k (pairsCalls unsigned c ts k) (k + pairsNodes ts)
  | [], _ => .nil
  | (_, t) :: ts, k => by
    have h := members_pairsCalls unsigned c ts (k + t.nodes)
    rw [Nat.add_assoc] at h
    exact .cons (whole_calls unsigned t k) rfl h

end

end Wire

namespace CallLog

/-- The log with more calls, and the number of the node that is next then. -/
def extend (log : CallLog) (next : Nat) (calls : List Call) : CallLog :=
  ⟨next, (log.calls.toList ++ calls).toArray⟩

@[simp]
theorem next_extend (log : CallLog) (next : Nat) (calls : List Call) :
    (log.extend next calls).next = next := rfl

@[simp]
theorem toList_extend (log : CallLog) (next : Nat) (calls : List Call) :
    (log.extend next calls).calls.toList = log.calls.toList ++ calls := rfl

@[simp]
theorem extend_extend (log : CallLog) (next next' : Nat) (xs ys : List Call) :
    (log.extend next xs).extend next' ys = log.extend next' (xs ++ ys) := by
  simp only [extend, List.append_assoc]

theorem extend_nil (log : CallLog) : log.extend log.next [] = log := by
  simp only [extend, List.append_nil, Array.toArray_toList]

theorem make_eq (call : Nat → Call) (log : CallLog) :
    make call log = (log.next, log.extend (log.next + 1) [call log.next]) := by
  simp only [make, extend, ← Array.toList_push, Array.toArray_toList]

theorem change_eq (node : Nat) (call : Call) (log : CallLog) :
    change node call log = (node, log.extend log.next [call]) := by
  simp only [change, extend, ← Array.toList_push, Array.toArray_toList]

end CallLog

namespace Wire

mutual

/-- **A log goes on by the calls for the tree that is built.** -/
theorem build_callLog (unsigned : Bool) : ∀ (t : Wire) (log : CallLog),
    t.build (Builder.callLog unsigned) log =
      (log.next, log.extend (log.next + t.nodes) (t.calls unsigned log.next))
  | null, log => CallLog.make_eq .null log
  | bool b, log => CallLog.make_eq (.bool · b) log
  | integer n, log => CallLog.make_eq (.integer · n) log
  | uinteger n, log => by
    cases unsigned with
    | true => exact CallLog.make_eq (.uinteger · n) log
    | false => exact CallLog.make_eq (.integer · n.toInt64) log
  | real x, log => CallLog.make_eq (.real · x) log
  | text s, log => CallLog.make_eq (.text · s) log
  | bytes bs, log => CallLog.make_eq (.bytes · bs) log
  | array items, log => by
    have h := buildItems_callLog unsigned log.next items
    have hopen := CallLog.make_eq (.array · items.length) log
    show buildItems _ items (CallLog.make (.array · items.length) log) = _
    rw [hopen, h, CallLog.extend_extend, CallLog.next_extend, Nat.add_right_comm]
    rfl
  | object pairs, log => by
    have h := buildPairs_callLog unsigned log.next pairs
    have hopen := CallLog.make_eq (.object · pairs.length) log
    show buildPairs _ pairs (CallLog.make (.object · pairs.length) log) = _
    rw [hopen, h, CallLog.extend_extend, CallLog.next_extend, Nat.add_right_comm]
    rfl

theorem buildItems_callLog (unsigned : Bool) (c : Nat) : ∀ (ts : List Wire) (log : CallLog),
    buildItems (Builder.callLog unsigned) ts (c, log) =
      (c, log.extend (log.next + itemsNodes ts) (itemsCalls unsigned c ts log.next))
  | [], log => by
    show (c, log) = (c, log.extend log.next [])
    rw [CallLog.extend_nil]
  | t :: ts, log => by
    have h := buildItems_callLog unsigned c ts
    show buildItems _ ts (CallLog.change c (.append c (t.build _ log).1) (t.build _ log).2) = _
    rw [build_callLog unsigned t log, CallLog.change_eq, h]
    simp only [CallLog.extend_extend, CallLog.next_extend, List.append_assoc, Nat.add_assoc]
    rfl

theorem buildPairs_callLog (unsigned : Bool) (c : Nat) :
    ∀ (ts : List (String × Wire)) (log : CallLog),
      buildPairs (Builder.callLog unsigned) ts (c, log) =
        (c, log.extend (log.next + pairsNodes ts) (pairsCalls unsigned c ts log.next))
  | [], log => by
    show (c, log) = (c, log.extend log.next [])
    rw [CallLog.extend_nil]
  | (key, t) :: ts, log => by
    have h := buildPairs_callLog unsigned c ts
    show buildPairs _ ts (CallLog.change c (.set c key (t.build _ log).1) (t.build _ log).2) = _
    rw [build_callLog unsigned t log, CallLog.change_eq, h]
    simp only [CallLog.extend_extend, CallLog.next_extend, List.append_assoc, Nat.add_assoc]
    rfl

end

end Wire

end WireTree
