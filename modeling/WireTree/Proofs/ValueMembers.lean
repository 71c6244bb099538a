import Mathlib.Data.List.Forall2
import WireTree.Proofs.ValueForms
import WireTree.Value.Equality

/-!
# Members of values

What stands in a value, and what equality says of values that are changed member by member.

* `Value.StandsIn w v`: the value `w` is `v` itself or stands somewhere in it, at any depth. The
  keys of an object are not values.

Results:
* `memberInduction`: a property that a container has as soon as its members do is a property of all
  values.
* `forall_standsIn_array`, `forall_standsIn_object`: what stands in a container is the container and
  what stands in its members.
* `equalItems_iff`, `equalFields_iff`: the two comparisons of members, said without recursion.
* **`equalItems_map_iff`**, **`equalFields_mapValues_iff`**: elements that are changed one by one
  equal those that they were exactly if each does, and so do fields under distinct keys.
-/

namespace WireTree.Value

/-! ## Induction over members -/

/-- A property of all values, if a container has it as soon as its members do. -/
@[elab_as_elim]
theorem memberInduction {P : Value → Prop} (null : P null) (bool : ∀ b, P (bool b))
    (int : ∀ n, P (int n)) (uint : ∀ n, P (uint n)) (real : ∀ x, P (real x))
    (text : ∀ s, P (text s)) (bytes : ∀ bs, P (bytes bs))
    (array : ∀ items, (∀ v ∈ items, P v) → P (array items))
    (object : ∀ fields, (∀ field ∈ fields, P field.2) → P (object fields)) (v : Value) : P v := by
  refine @Value.rec P (fun items => ∀ v ∈ items, P v) (fun fields => ∀ field ∈ fields, P field.2)
    (fun field => P field.2) null bool int uint real text bytes array object
    ?_ ?_ ?_ ?_ ?_ v
  · intro v h
    cases h
  · intro head rest hhead hrest
    exact List.forall_mem_cons.2 ⟨hhead, hrest⟩
  · intro field h
    cases h
  · intro head rest hhead hrest
    exact List.forall_mem_cons.2 ⟨hhead, hrest⟩
  · intro key v h
    exact h

/-! ## What stands in a value -/

/-- The value `w` is the other one or stands somewhere in it. -/
inductive StandsIn (w : Value) : Value → Prop
  | self : StandsIn w w
  | item {items : List Value} {v : Value} (hmem : v ∈ items) (h : StandsIn w v) :
      StandsIn w (.array items)
  | field {fields : List (String × Value)} {field : String × Value} (hmem : field ∈ fields)
      (h : StandsIn w field.2) : StandsIn w (.object fields)

section
variable {P : Value → Prop}

/-- Nothing stands in a value without members but the value. -/
theorem forall_standsIn_iff {v : Value} (hitems : v.asArray? = none)
    (hfields : v.asObject? = none) : (∀ w, StandsIn w v → P w) ↔ P v := by
  constructor
  · intro h
    exact h v .self
  · rintro h w (_ | _ | _)
    · exact h
    · cases hitems
    · cases hfields

theorem forall_standsIn_array {items : List Value} :
    (∀ w, StandsIn w (.array items) → P w) ↔
      P (.array items) ∧ ∀ v ∈ items, ∀ w, StandsIn w v → P w := by
  constructor
  · intro h
    exact ⟨h _ .self, fun v hmem w hw => h w (.item hmem hw)⟩
  · rintro ⟨hself, hitems⟩ w (_ | ⟨hmem, hw⟩)
    · exact hself
    · exact hitems _ hmem w hw

theorem forall_standsIn_object {fields : List (String × Value)} :
    (∀ w, StandsIn w (.object fields) → P w) ↔
      P (.object fields) ∧ ∀ field ∈ fields, ∀ w, StandsIn w field.2 → P w := by
  constructor
  · intro h
    exact ⟨h _ .self, fun field hmem w hw => h w (.field hmem hw)⟩
  · rintro ⟨hself, hfields⟩ w (_ | _ | ⟨hmem, hw⟩)
    · exact hself
    · exact hfields _ hmem w hw

end

/-! ## Equality member by member -/

/-- Arrays are equal if they are equally long and equal in every place. -/
theorem equalItems_iff {vs ws : List Value} : equalItems vs ws = true ↔
    List.Forall₂ (fun v w => v.equals w = true) vs ws := by
  induction vs generalizing ws with
  | nil => cases ws <;> simp [equalItems]
  | cons v vs ih => cases ws <;> simp [equalItems, ih]

/-- Every field is compared with the one that is found under its key. -/
theorem equalFields_iff {f g : List (String × Value)} : equalFields f g = true ↔
    ∀ key v, (key, v) ∈ f → ∃ w, Fields.find? key g = some w ∧ v.equals w = true := by
  induction f with
  | nil => simp [equalFields]
  | cons field rest ih =>
    obtain ⟨k, v⟩ := field
    rw [equalFields, Bool.and_eq_true, ih]
    constructor
    · rintro ⟨hhead, hrest⟩ key w hmem
      rcases List.mem_cons.1 hmem with heq | hmem
      · obtain ⟨rfl, rfl⟩ := Prod.mk.inj heq
        cases hfind : Fields.find? key g with
        | none => simp [hfind] at hhead
        | some u => exact ⟨u, rfl, by simpa [hfind] using hhead⟩
      · exact hrest key w hmem
    · intro h
      obtain ⟨w, hfind, hvw⟩ := h k v List.mem_cons_self
      refine ⟨?_, fun key u hmem => h key u (List.mem_cons_of_mem _ hmem)⟩
      rw [hfind]
      exact hvw

/-- Elements that are changed one by one equal those that they were exactly if each does. -/
theorem equalItems_map_iff {f : Value → Value} {items : List Value} :
    equalItems (items.map f) items = true ↔ ∀ v ∈ items, (f v).equals v = true := by
  rw [equalItems_iff, List.forall₂_map_left_iff, List.forall₂_same]

/-- Fields that are changed one by one equal those that they were exactly if each does, as long as
their keys are distinct. -/
theorem equalFields_mapValues_iff {f : Value → Value} {fields : List (String × Value)}
    (hkeys : (Fields.keys fields).Nodup) :
    equalFields (Fields.mapValues f fields) fields = true ↔
      ∀ field ∈ fields, (f field.2).equals field.2 = true := by
  rw [equalFields_iff]
  constructor
  · intro h field hmem
    obtain ⟨w, hfind, heq⟩ := h field.1 (f field.2) (List.mem_map.2 ⟨field, hmem, rfl⟩)
    rw [Fields.find?_of_mem hkeys hmem] at hfind
    cases hfind
    exact heq
  · intro h key v hmem
    obtain ⟨field, hfield, heq⟩ := List.mem_map.1 hmem
    cases heq
    exact ⟨field.2, Fields.find?_of_mem hkeys hfield, h field hfield⟩

end WireTree.Value
