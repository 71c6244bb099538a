import WireTree.Proofs.DataUris
import WireTree.Proofs.TreeKinds
import WireTree.Proofs.ValueForms

/-!
# JSON trees as values

What a JSON tree is like, and what is left of it as a value.

* `Json.DistinctKeys`: no object in the tree has a key twice, as is the case for all trees that the
  library builds.
* `Json.nesting` is the depth to which containers nest, zero if there is none.

Results:
* `nesting_ofJson`, `distinctKeys_ofJson`: the value nests as deeply, and its keys are distinct too.
* **`ofValue_ofJson`**: a tree that was turned into a value is turned back into itself. Texts that
  were taken for bytes are written as they were, because there is one URI for them only.
* `ofValue_normal`: a value and its normal form are the same JSON tree.
-/

namespace WireTree

namespace Json

/-! ## Keys and nesting -/

mutual

/-- No object has a key twice. -/
def DistinctKeys : Json → Prop
  | array items => ItemsDistinct items
  | object fields => (Fields.keys fields).Nodup ∧ FieldsDistinct fields
  | _ => True

/-- No object in a list of trees has a key twice. -/
def ItemsDistinct : List Json → Prop
  | [] => True
  | j :: js => j.DistinctKeys ∧ ItemsDistinct js

/-- No object under the keys of a list of fields has a key twice. -/
def FieldsDistinct : List (String × Json) → Prop
  | [] => True
  | (_, j) :: rest => j.DistinctKeys ∧ FieldsDistinct rest

end

mutual

/-- The depth to which containers nest. -/
def nesting : Json → Nat
  | array items => itemsNesting items + 1
  | object fields => fieldsNesting fields + 1
  | _ => 0

/-- The largest depth among the elements of an array. -/
def itemsNesting : List Json → Nat
  | [] => 0
  | j :: js => max j.nesting (itemsNesting js)

/-- The largest depth among the fields of an object. -/
def fieldsNesting : List (String × Json) → Nat
  | [] => 0
  | (_, j) :: rest => max j.nesting (fieldsNesting rest)

end

theorem itemsDistinct_iff {items : List Json} :
    ItemsDistinct items ↔ ∀ j ∈ items, j.DistinctKeys := by
  induction items with
  | nil => simp [ItemsDistinct]
  | cons j js ih => simp [ItemsDistinct, ih]

theorem fieldsDistinct_iff {fields : List (String × Json)} :
    FieldsDistinct fields ↔ ∀ field ∈ fields, field.2.DistinctKeys := by
  induction fields with
  | nil => simp [FieldsDistinct]
  | cons field rest ih => simp [FieldsDistinct, ih]

end Json

namespace Value

/-! ## The value of a tree -/

theorem nesting_toValue (n : WholeNumber) : n.toValue.nesting = 0 := by
  unfold WholeNumber.toValue
  split <;> rfl

theorem nesting_ofText (s : String) : (ofText s).nesting = 0 := by
  unfold ofText
  split <;> rfl

mutual

/-- The value nests as deeply as the tree. -/
theorem nesting_ofJson : ∀ j : Json, (ofJson j).nesting = j.nesting
  | .null | .bool _ | .real _ => rfl
  | .whole n => nesting_toValue n
  | .text s => nesting_ofText s
  | .array items => by rw [ofJson, nesting, itemsNesting_ofJson items, Json.nesting]
  | .object fields => by rw [ofJson, nesting, fieldsNesting_ofJson fields, Json.nesting]

theorem itemsNesting_ofJson : ∀ items : List Json,
    itemsNesting (ofJsonItems items) = Json.itemsNesting items
  | [] => rfl
  | j :: js => by
    rw [ofJsonItems, itemsNesting, nesting_ofJson j, itemsNesting_ofJson js, Json.itemsNesting]

theorem fieldsNesting_ofJson : ∀ fields : List (String × Json),
    fieldsNesting (ofJsonFields fields) = Json.fieldsNesting fields
  | [] => rfl
  | (k, j) :: rest => by
    rw [ofJsonFields, fieldsNesting, nesting_ofJson j, fieldsNesting_ofJson rest,
      Json.fieldsNesting]

end

theorem distinctKeys_toValue (n : WholeNumber) : n.toValue.DistinctKeys := by
  unfold WholeNumber.toValue
  split <;> trivial

theorem distinctKeys_ofText (s : String) : (ofText s).DistinctKeys := by
  unfold ofText
  split <;> trivial

theorem length_ofJsonItems (items : List Json) : (ofJsonItems items).length = items.length := by
  induction items with
  | nil => rfl
  | cons j js ih => exact congrArg (· + 1) ih

theorem length_ofJsonFields (fields : List (String × Json)) :
    (ofJsonFields fields).length = fields.length := by
  induction fields with
  | nil => rfl
  | cons field rest ih => exact congrArg (· + 1) ih

theorem keys_ofJsonFields (fields : List (String × Json)) :
    Fields.keys (ofJsonFields fields) = Fields.keys fields := by
  induction fields with
  | nil => rfl
  | cons field rest ih => exact congrArg (field.1 :: ·) ih

mutual

/-- The value of a tree with distinct keys has distinct keys. -/
theorem distinctKeys_ofJson : ∀ j : Json, j.DistinctKeys → (ofJson j).DistinctKeys
  | .null, _ | .bool _, _ | .real _, _ => trivial
  | .whole n, _ => distinctKeys_toValue n
  | .text s, _ => distinctKeys_ofText s
  | .array items, h => itemsDistinct_ofJson items h
  | .object fields, ⟨hnodup, h⟩ =>
    ⟨(keys_ofJsonFields fields).symm ▸ hnodup, fieldsDistinct_ofJson fields h⟩

theorem itemsDistinct_ofJson : ∀ items : List Json, Json.ItemsDistinct items →
    ItemsDistinct (ofJsonItems items)
  | [], _ => trivial
  | j :: js, ⟨h, hs⟩ => ⟨distinctKeys_ofJson j h, itemsDistinct_ofJson js hs⟩

theorem fieldsDistinct_ofJson : ∀ fields : List (String × Json), Json.FieldsDistinct fields →
    FieldsDistinct (ofJsonFields fields)
  | [], _ => trivial
  | (_, j) :: rest, ⟨h, hs⟩ => ⟨distinctKeys_ofJson j h, fieldsDistinct_ofJson rest hs⟩

end

end Value

namespace Json

/-! ## There and back -/

/-- A whole number comes back from the kind of integer that holds it. -/
theorem ofValue_toValue (n : WholeNumber) : ofValue n.toValue = whole n := by
  have hlow := n.lower
  have hhigh := n.upper
  rw [WholeNumber.toValue]
  split
  · rename_i h
    exact whole_eq_of_val (Int64.toInt_ofInt_of_le hlow h)
  · rename_i h
    apply whole_eq_of_val
    show ((UInt64.ofNat n.val.toNat).toNat : Int) = n.val
    rw [toNat_ofNat_of_lt (by omega)]
    exact Int.toNat_of_nonneg (by omega)

/-- A text comes back also if it was taken for bytes. -/
theorem ofValue_ofText (s : String) : ofValue (.ofText s) = text s := by
  rw [Value.ofText]
  split
  · rename_i h
    exact congrArg text (DataUri.encode_of_decode? h)
  · rfl

mutual

/-- **A tree that was turned into a value is turned back into itself.** -/
theorem ofValue_ofJson : ∀ j : Json, ofValue (.ofJson j) = j
  | null | bool _ => rfl
  | whole n => ofValue_toValue n
  | real x => dif_pos x.finite
  | text s => ofValue_ofText s
  | array items => congrArg array (ofItems_ofJsonItems items)
  | object fields => congrArg object (ofFields_ofJsonFields fields)

theorem ofItems_ofJsonItems : ∀ items : List Json, ofItems (Value.ofJsonItems items) = items
  | [] => rfl
  | j :: js => by rw [Value.ofJsonItems, ofItems, ofValue_ofJson j, ofItems_ofJsonItems js]

theorem ofFields_ofJsonFields : ∀ fields : List (String × Json),
    ofFields (Value.ofJsonFields fields) = fields
  | [] => rfl
  | (k, j) :: rest => by
    rw [Value.ofJsonFields, ofFields, ofValue_ofJson j, ofFields_ofJsonFields rest]

end

mutual

/-- A value and its normal form are the same tree. -/
theorem ofValue_normal : ∀ v : Value, ofValue v.normal = ofValue v
  | .null | .bool _ | .int _ | .real _ | .text _ | .bytes _ => rfl
  | .uint n => ofValue_ofUInt n
  | .array items => congrArg array (ofItems_normal items)
  | .object fields => congrArg object (ofFields_normal fields)

theorem ofItems_normal : ∀ items : List Value, ofItems (Value.normalItems items) = ofItems items
  | [] => rfl
  | v :: vs => by rw [Value.normalItems, ofItems, ofValue_normal v, ofItems_normal vs, ofItems]

theorem ofFields_normal : ∀ fields : List (String × Value),
    ofFields (Value.normalFields fields) = ofFields fields
  | [] => rfl
  | (k, v) :: rest => by
    rw [Value.normalFields, ofFields, ofValue_normal v, ofFields_normal rest, ofFields]

end

end Json

end WireTree
