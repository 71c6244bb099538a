import WireTree.Proofs.Agreement
import WireTree.Proofs.FieldLists
import WireTree.Proofs.IntegerWidths

/-!
# From one kind of trees to another

A translation of finished trees against decoding to the other kind right away.

* `TreeKind.Translates k₁ k₂ f`: what the first kind makes of an item, `f` turns into what the
  second kind makes of it, and it goes through containers member by member.
* `Draft.map f` is the same on trees that still grow.

The builders of two such kinds stay related by `Draft.map f` at every step of a walk
(`related_builder`), also while keys are repeated.

Results:
* **`decodeTree_translate`**: decoding to the second kind is decoding to the first and translating.
* **`decodeJson_eq_map_decode`**: so a JSON tree is decoded as if it were made from the value.
-/

namespace WireTree

variable {α β : Type}

/-- The draft with every tree in it translated. -/
def Draft.map (f : α → β) : Draft α → Draft β
  | .done tree => .done (f tree)
  | .array items => .array (items.map f)
  | .object fields => .object (Fields.mapValues f fields)

namespace TreeKind

/-- Each item looks in the second kind as it does in the first after translation by `f`. -/
structure Translates (k₁ : TreeKind α) (k₂ : TreeKind β) (f : α → β) : Prop where
  null : f k₁.null = k₂.null
  bool : ∀ b, f (k₁.bool b) = k₂.bool b
  integer : ∀ n, f (k₁.integer n) = k₂.integer n
  uinteger : ∀ n, f (k₁.uinteger n) = k₂.uinteger n
  real : ∀ x, f (k₁.real x) = k₂.real x
  text : ∀ s, f (k₁.text s) = k₂.text s
  bytes : ∀ bs, f (k₁.bytes bs) = k₂.bytes bs
  array : ∀ items, f (k₁.array items) = k₂.array (items.map f)
  object : ∀ fields, f (k₁.object fields) = k₂.object (Fields.mapValues f fields)

variable {k₁ : TreeKind α} {k₂ : TreeKind β} {f : α → β} (h : k₁.Translates k₂ f)
include h

/-! ## Drafts -/

/-- A translated draft stands for the translated tree. -/
theorem finish_map (d : Draft α) : k₂.finish (d.map f) = f (k₁.finish d) := by
  cases d with
  | done tree => rfl
  | array items => simp only [Draft.map, finish, Array.toList_map, h.array]
  | object fields => simp only [Draft.map, finish, h.object]

theorem appendTo_map (d element : Draft α) :
    k₂.appendTo (d.map f) (element.map f) = (k₁.appendTo d element).map f := by
  cases d with
  | array items =>
    show Draft.array ((items.map f).push (k₂.finish (element.map f))) = _
    rw [finish_map h, ← Array.map_push]
    rfl
  | done tree => rfl
  | object fields => rfl

theorem setIn_map (d : Draft α) (key : String) (value : Draft α) :
    k₂.setIn (d.map f) key (value.map f) = (k₁.setIn d key value).map f := by
  cases d with
  | object fields =>
    show Draft.object (Fields.insert key (k₂.finish (value.map f)) (Fields.mapValues f fields)) = _
    rw [finish_map h, Fields.insert_mapValues]
    rfl
  | done tree => rfl
  | array items => rfl

/-- At every step of a walk, the draft of the second kind is the translated one of the first. -/
theorem related_builder :
    Builder.Related (fun _ _ => True) (fun d₁ d₂ => d₂ = d₁.map f) k₁.builder k₂.builder where
  null := fun _ _ _ => ⟨congrArg Draft.done h.null.symm, trivial⟩
  bool := fun b _ _ _ => ⟨congrArg Draft.done (h.bool b).symm, trivial⟩
  integer := fun n _ _ _ => ⟨congrArg Draft.done (h.integer n).symm, trivial⟩
  uinteger := fun n _ _ _ => ⟨congrArg Draft.done (h.uinteger n).symm, trivial⟩
  real := fun x _ _ _ => ⟨congrArg Draft.done (h.real x).symm, trivial⟩
  text := fun s _ _ _ => ⟨congrArg Draft.done (h.text s).symm, trivial⟩
  bytes := fun bs _ _ _ => ⟨congrArg Draft.done (h.bytes bs).symm, trivial⟩
  array := fun _ _ _ _ => ⟨congrArg Draft.array Array.map_empty.symm, trivial⟩
  append := by
    rintro d _ element _ rfl rfl _ _ -
    exact ⟨appendTo_map h d element, trivial⟩
  object := fun _ _ _ _ => ⟨rfl, trivial⟩
  set := by
    rintro d _ key value _ rfl rfl _ _ -
    exact ⟨setIn_map h d key value, trivial⟩

end TreeKind

/-! ## Whole buffers -/

/-- **Decoding to the second kind is decoding to the first and translating.** The error is the same
where one fails. -/
theorem decodeTree_translate {k₁ : TreeKind α} {k₂ : TreeKind β} {f : α → β}
    (h : k₁.Translates k₂ f) (o : Options) (bytes : List UInt8) :
    decodeTree k₂ o bytes = (decodeTree k₁ o bytes).map f := by
  simp only [decodeTree]
  obtain ⟨d₁, d₂, h₁, h₂, rfl⟩ | ⟨e, h₁, h₂⟩ :=
    (decodeWith_related (TreeKind.related_builder h) o bytes () () trivial).1
  · rw [h₁, h₂]
    exact congrArg Except.ok (TreeKind.finish_map h d₁)
  · rw [h₁, h₂]
    rfl

namespace Json

theorem ofItems_eq_map (items : List Value) : ofItems items = items.map ofValue := by
  induction items with
  | nil => rfl
  | cons v vs ih => rw [ofItems, ih, List.map_cons]

theorem ofFields_eq_mapValues (fields : List (String × Value)) :
    ofFields fields = Fields.mapValues ofValue fields := by
  induction fields with
  | nil => rfl
  | cons field rest ih => rw [ofFields, ih, Fields.mapValues, Fields.mapValues, List.map_cons]

/-- A whole number is its number. -/
theorem whole_eq_of_val {m n : WholeNumber} (h : m.val = n.val) : whole m = whole n := by
  cases m
  cases n
  cases h
  rfl

/-- An unsigned number is the same whole number, whichever kind of value holds it. -/
theorem ofValue_ofUInt (n : UInt64) : ofValue (.ofUInt n) = whole (.ofUInt n) := by
  rw [Value.ofUInt]
  split
  · rename_i hn
    exact whole_eq_of_val (toInt_toInt64_of_lt hn)
  · rfl

/-- Values are translated to JSON item by item. -/
theorem translates_ofValue : TreeKind.value.Translates TreeKind.json ofValue where
  null := rfl
  bool := fun _ => rfl
  integer := fun _ => rfl
  uinteger := ofValue_ofUInt
  real := fun _ => rfl
  text := fun _ => rfl
  bytes := fun _ => rfl
  array := fun items => congrArg array (ofItems_eq_map items)
  object := fun fields => congrArg object (ofFields_eq_mapValues fields)

end Json

/-- **Decoding to a JSON tree is decoding to a value and making a JSON tree of it**, whatever the
buffer and the options are: the error is the same where one fails, and otherwise the tree is, with
its keys in the same order, its integers of all sizes, its bytes as data URIs, and nulls for reals
that JSON cannot say. -/
theorem decodeJson_eq_map_decode (o : Options) (bytes : List UInt8) :
    decodeJson o bytes = (decode o bytes).map Json.ofValue :=
  decodeTree_translate Json.translates_ofValue o bytes

end WireTree
