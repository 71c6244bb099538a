import WireTree.Proofs.Grammar
import WireTree.Proofs.ValueForms

/-!
# What the values of trees are like

Every value that a tree stands for is in order, whatever the tree looks like.

Results:
* `distinctKeys_denote`: no key is left twice.
* `normal_denote`: the value is its own normal form.
* `nesting_denote_le`: it nests no deeper than the tree. It may nest less deeply, as fields can get
  lost when their keys are repeated.
-/

namespace WireTree.Wire

/-! ## Induction over members -/

/-- A property of all trees, if a container has it as soon as its members do. -/
@[elab_as_elim]
theorem memberInduction {P : Wire → Prop} (null : P null) (bool : ∀ b, P (bool b))
    (integer : ∀ n, P (integer n)) (uinteger : ∀ n, P (uinteger n)) (real : ∀ x, P (real x))
    (text : ∀ s, P (text s)) (bytes : ∀ bs, P (bytes bs))
    (array : ∀ items, (∀ t ∈ items, P t) → P (array items))
    (object : ∀ pairs, (∀ pair ∈ pairs, P pair.2) → P (object pairs)) (t : Wire) : P t := by
  refine @Wire.rec P (fun items => ∀ t ∈ items, P t) (fun pairs => ∀ pair ∈ pairs, P pair.2)
    (fun pair => P pair.2) null bool integer uinteger real text bytes array object
    ?_ ?_ ?_ ?_ ?_ t
  · intro t h
    cases h
  · intro head rest hhead hrest t h
    rcases List.mem_cons.1 h with rfl | h
    · exact hhead
    · exact hrest t h
  · intro pair h
    cases h
  · intro head rest hhead hrest pair h
    rcases List.mem_cons.1 h with rfl | h
    · exact hhead
    · exact hrest pair h
  · intro key t h
    exact h

/-! ## Members of a value -/

theorem length_denoteItems (items : List Wire) : (denoteItems items).length = items.length := by
  induction items with
  | nil => rfl
  | cons t ts ih => rw [denoteItems, List.length_cons, List.length_cons, ih]

theorem length_denotePairs (pairs : List (String × Wire)) :
    (denotePairs pairs).length = pairs.length := by
  induction pairs with
  | nil => rfl
  | cons pair rest ih => rw [denotePairs, List.length_cons, List.length_cons, ih]

theorem mem_denoteItems {items : List Wire} {v : Value} :
    v ∈ denoteItems items ↔ ∃ t ∈ items, v = t.denote := by
  induction items with
  | nil => simp [denoteItems]
  | cons t ts ih => simp [denoteItems, ih]

theorem mem_denotePairs {pairs : List (String × Wire)} {field : String × Value} :
    field ∈ denotePairs pairs ↔ ∃ pair ∈ pairs, field = (pair.1, pair.2.denote) := by
  induction pairs with
  | nil => simp [denotePairs]
  | cons pair rest ih => simp [denotePairs, ih]

/-- The fields of an object are the values of some of its pairs. -/
theorem mem_ofList_denotePairs {pairs : List (String × Wire)} {field : String × Value}
    (h : field ∈ Fields.ofList (denotePairs pairs)) :
    ∃ pair ∈ pairs, field = (pair.1, pair.2.denote) :=
  mem_denotePairs.1 (Fields.mem_of_mem_ofList h)

theorem nesting_le_itemsNesting {items : List Wire} {t : Wire} (h : t ∈ items) :
    t.nesting ≤ itemsNesting items := by
  induction items with
  | nil => cases h
  | cons head rest ih =>
    rw [itemsNesting]
    rcases List.mem_cons.1 h with rfl | h
    · exact Nat.le_max_left ..
    · exact Nat.le_trans (ih h) (Nat.le_max_right ..)

theorem nesting_le_pairsNesting {pairs : List (String × Wire)} {pair : String × Wire}
    (h : pair ∈ pairs) : pair.2.nesting ≤ pairsNesting pairs := by
  induction pairs with
  | nil => cases h
  | cons head rest ih =>
    rw [pairsNesting]
    rcases List.mem_cons.1 h with rfl | h
    · exact Nat.le_max_left ..
    · exact Nat.le_trans (ih h) (Nat.le_max_right ..)

/-! ## Keys, normal forms, nesting -/

/-- No key of the value is left twice. -/
theorem distinctKeys_denote (t : Wire) : t.denote.DistinctKeys := by
  induction t using memberInduction with
  | uinteger n =>
    rw [denote, Value.ofUInt]
    split <;> trivial
  | array items ih =>
    refine Value.itemsDistinct_iff.2 fun v hv => ?_
    obtain ⟨t, ht, rfl⟩ := mem_denoteItems.1 hv
    exact ih t ht
  | object pairs ih =>
    refine ⟨Fields.nodup_keys_ofList _, Value.fieldsDistinct_iff.2 fun field hfield => ?_⟩
    obtain ⟨pair, hpair, rfl⟩ := mem_ofList_denotePairs hfield
    exact ih pair hpair
  | _ => trivial

/-- The value is its own normal form. -/
theorem normal_denote (t : Wire) : t.denote.normal = t.denote := by
  induction t using memberInduction with
  | uinteger n => exact Value.normal_ofUInt n
  | array items ih =>
    have hitems : (denoteItems items).map Value.normal = denoteItems items := by
      refine (List.map_congr_left fun v hv => ?_).trans (List.map_id _)
      obtain ⟨t, ht, rfl⟩ := mem_denoteItems.1 hv
      exact ih t ht
    rw [denote, Value.normal, Value.normalItems_eq_map, hitems]
  | object pairs ih =>
    have hfields : (Fields.ofList (denotePairs pairs)).map (fun field =>
        (field.1, field.2.normal)) = Fields.ofList (denotePairs pairs) := by
      refine (List.map_congr_left fun field hfield => ?_).trans (List.map_id _)
      obtain ⟨pair, hpair, rfl⟩ := mem_ofList_denotePairs hfield
      exact congrArg (Prod.mk pair.1) (ih pair hpair)
    rw [denote, Value.ofPairs, Value.normal, Value.normalFields_eq_map, hfields]
  | _ => rfl

/-- The value nests no deeper than the tree. -/
theorem nesting_denote_le (t : Wire) : t.denote.nesting ≤ t.nesting := by
  induction t using memberInduction with
  | uinteger n =>
    rw [denote, Value.ofUInt]
    split <;> exact Nat.le_refl 0
  | array items ih =>
    refine Nat.succ_le_succ (Value.itemsNesting_le_iff.2 fun v hv => ?_)
    obtain ⟨t, ht, rfl⟩ := mem_denoteItems.1 hv
    exact Nat.le_trans (ih t ht) (nesting_le_itemsNesting ht)
  | object pairs ih =>
    refine Nat.succ_le_succ (Value.fieldsNesting_le_iff.2 fun field hfield => ?_)
    obtain ⟨pair, hpair, rfl⟩ := mem_ofList_denotePairs hfield
    exact Nat.le_trans (ih pair hpair) (nesting_le_pairsNesting hpair)
  | _ => exact Nat.le_refl 0

end WireTree.Wire
