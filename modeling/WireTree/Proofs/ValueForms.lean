import WireTree.Proofs.FieldLists
import WireTree.Value

/-!
# What a value is made of

Properties of values as trees, apart from their bytes.

* `Value.DistinctKeys`: no object in the value has a key twice, as is the case for all values that
  the library builds.
* `Value.nesting` is the depth to which containers nest, zero if there is none.
* `Value.normal` is the value with every unsigned number as a signed one where it fits. Nothing
  else changes: elements, keys and fields stay where they are.
* `Value.hasNaN` says whether some real in the value is not a number.

Results:
* `itemsDistinct_iff`, `fieldsDistinct_iff` and their kin: what is asked of a list is asked of each
  of its members.
* `keys_normalFields`: normal forms keep the keys and their order.
-/

namespace WireTree.Value

/-! ## Keys, nesting, normal forms -/

mutual

/-- No object has a key twice. -/
def DistinctKeys : Value → Prop
  | array items => ItemsDistinct items
  | object fields => (Fields.keys fields).Nodup ∧ FieldsDistinct fields
  | _ => True

/-- No object in a list of values has a key twice. -/
def ItemsDistinct : List Value → Prop
  | [] => True
  | v :: vs => v.DistinctKeys ∧ ItemsDistinct vs

/-- No object under the keys of a list of fields has a key twice. -/
def FieldsDistinct : List (String × Value) → Prop
  | [] => True
  | (_, v) :: rest => v.DistinctKeys ∧ FieldsDistinct rest

end

mutual

/-- The depth to which containers nest. -/
def nesting : Value → Nat
  | array items => itemsNesting items + 1
  | object fields => fieldsNesting fields + 1
  | _ => 0

/-- The largest depth among the elements of an array. -/
def itemsNesting : List Value → Nat
  | [] => 0
  | v :: vs => max v.nesting (itemsNesting vs)

/-- The largest depth among the values of an object. -/
def fieldsNesting : List (String × Value) → Nat
  | [] => 0
  | (_, v) :: rest => max v.nesting (fieldsNesting rest)

end

mutual

/-- The value with unsigned numbers as signed ones where they fit. -/
def normal : Value → Value
  | uint n => ofUInt n
  | array items => array (normalItems items)
  | object fields => object (normalFields fields)
  | v => v

/-- The normal forms of the elements of an array. -/
def normalItems : List Value → List Value
  | [] => []
  | v :: vs => v.normal :: normalItems vs

/-- The normal forms of the values of an object, under the same keys. -/
def normalFields : List (String × Value) → List (String × Value)
  | [] => []
  | (k, v) :: rest => (k, v.normal) :: normalFields rest

end

mutual

/-- Whether some real in the value is not a number. -/
def hasNaN : Value → Bool
  | real x => x.isNaN
  | array items => itemsHaveNaN items
  | object fields => fieldsHaveNaN fields
  | _ => false

/-- Whether some real in a list of values is not a number. -/
def itemsHaveNaN : List Value → Bool
  | [] => false
  | v :: vs => v.hasNaN || itemsHaveNaN vs

/-- Whether some real under the keys of a list of fields is not a number. -/
def fieldsHaveNaN : List (String × Value) → Bool
  | [] => false
  | (_, v) :: rest => v.hasNaN || fieldsHaveNaN rest

end

/-! ## Lists member by member -/

theorem itemsDistinct_iff {items : List Value} :
    ItemsDistinct items ↔ ∀ v ∈ items, v.DistinctKeys := by
  induction items with
  | nil => simp [ItemsDistinct]
  | cons v vs ih => simp [ItemsDistinct, ih]

theorem fieldsDistinct_iff {fields : List (String × Value)} :
    FieldsDistinct fields ↔ ∀ pair ∈ fields, pair.2.DistinctKeys := by
  induction fields with
  | nil => simp [FieldsDistinct]
  | cons pair rest ih => simp [FieldsDistinct, ih]

theorem itemsNesting_le_iff {items : List Value} {n : Nat} :
    itemsNesting items ≤ n ↔ ∀ v ∈ items, v.nesting ≤ n := by
  induction items with
  | nil => simp [itemsNesting]
  | cons v vs ih => rw [itemsNesting, Nat.max_le, ih, List.forall_mem_cons]

theorem fieldsNesting_le_iff {fields : List (String × Value)} {n : Nat} :
    fieldsNesting fields ≤ n ↔ ∀ pair ∈ fields, pair.2.nesting ≤ n := by
  induction fields with
  | nil => simp [fieldsNesting]
  | cons pair rest ih => rw [fieldsNesting, Nat.max_le, ih, List.forall_mem_cons]

theorem normalItems_eq_map (items : List Value) : normalItems items = items.map normal := by
  induction items with
  | nil => rfl
  | cons v vs ih => rw [normalItems, ih, List.map_cons]

theorem normalFields_eq_map (fields : List (String × Value)) :
    normalFields fields = fields.map fun pair => (pair.1, pair.2.normal) := by
  induction fields with
  | nil => rfl
  | cons pair rest ih => rw [normalFields, ih, List.map_cons]

theorem fieldsHaveNaN_eq_false_iff {fields : List (String × Value)} :
    fieldsHaveNaN fields = false ↔ ∀ pair ∈ fields, pair.2.hasNaN = false := by
  induction fields with
  | nil => simp [fieldsHaveNaN]
  | cons pair rest ih => simp [fieldsHaveNaN, Bool.or_eq_false_iff, ih]

/-- Normal forms keep the keys and their order. -/
theorem keys_normalFields (fields : List (String × Value)) :
    Fields.keys (normalFields fields) = Fields.keys fields := by
  rw [normalFields_eq_map, Fields.keys, List.map_map]
  rfl

theorem normal_ofUInt (n : UInt64) : (ofUInt n).normal = ofUInt n := by
  by_cases h : n.toNat < 0x8000_0000_0000_0000
  · rw [ofUInt, if_pos h]
    rfl
  · rw [ofUInt, if_neg h, normal, ofUInt, if_neg h]

theorem length_normalFields (fields : List (String × Value)) :
    (normalFields fields).length = fields.length := by
  rw [normalFields_eq_map, List.length_map]

end WireTree.Value
