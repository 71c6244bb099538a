import WireTree.Proofs.JsonForms
import WireTree.Proofs.ValueMembers

/-!
# Values and JSON trees

What is left of a tree that is turned into one of the other type, and of one that is turned back.

* `Outline` is what both types of trees have in common: containers in containers, with the keys of
  every object in order. `Value.outline` and `Json.outline` are the outlines of trees.
* `Value.collectJson` and `Json.collectValue` are the conversions as they are carried out with maps:
  the converted fields of an object are inserted into a new one, one after the other.
* `Value.Sayable`: JSON can say what a value without members is. It can say neither an infinite real
  nor one that is not a number, and it says bytes by the texts that are their URIs.

A text that is a URI comes back as bytes, and a real that JSON cannot say as a null. Neither equals
what it was, and no container equals one in which some member does not equal its own. A key stays a
text, whatever it looks like.

Results:
* `outline_ofJson`, `outline_ofValue`: conversions keep the outline, whatever becomes of the leaves.
* `collectJson_eq`, `collectValue_eq`: inserting fields one after the other changes nothing, since
  no key is there already.
* `equals_throughJson_iff`: a value comes back as an equal one exactly if JSON can say all that
  stands in it.
* **`conversions_keep_trees`**: so JSON trees are kept, and values exactly as far as that.
-/

namespace WireTree

/-! ## Outlines -/

/-- The containers of a tree, with their keys in order. -/
inductive Outline where
  | leaf
  | array (items : List Outline)
  | object (fields : List (String × Outline))

mutual

/-- The containers of a value. -/
def Value.outline : Value → Outline
  | .array items => .array (Value.itemsOutline items)
  | .object fields => .object (Value.fieldsOutline fields)
  | _ => .leaf

/-- The containers of the elements of an array. -/
def Value.itemsOutline : List Value → List Outline
  | [] => []
  | v :: vs => v.outline :: Value.itemsOutline vs

/-- The containers of the values of an object, under the same keys. -/
def Value.fieldsOutline : List (String × Value) → List (String × Outline)
  | [] => []
  | (k, v) :: rest => (k, v.outline) :: Value.fieldsOutline rest

end

mutual

/-- The containers of a JSON tree. -/
def Json.outline : Json → Outline
  | .array items => .array (Json.itemsOutline items)
  | .object fields => .object (Json.fieldsOutline fields)
  | _ => .leaf

/-- The containers of the elements of a JSON array. -/
def Json.itemsOutline : List Json → List Outline
  | [] => []
  | j :: js => j.outline :: Json.itemsOutline js

/-- The containers of the fields of a JSON object, under the same keys. -/
def Json.fieldsOutline : List (String × Json) → List (String × Outline)
  | [] => []
  | (k, j) :: rest => (k, j.outline) :: Json.fieldsOutline rest

end

namespace Json

theorem outline_ofReal (x : Binary64) : (ofReal x).outline = .leaf := by
  unfold ofReal
  split <;> rfl

mutual

/-- The JSON tree of a value has the outline of the value. -/
theorem outline_ofValue : ∀ v : Value, (ofValue v).outline = v.outline
  | .null | .bool _ | .int _ | .uint _ | .text _ | .bytes _ => rfl
  | .real x => outline_ofReal x
  | .array items => congrArg Outline.array (itemsOutline_ofItems items)
  | .object fields => congrArg Outline.object (fieldsOutline_ofFields fields)

theorem itemsOutline_ofItems : ∀ items : List Value,
    itemsOutline (ofItems items) = Value.itemsOutline items
  | [] => rfl
  | v :: vs => by
    rw [ofItems, itemsOutline, outline_ofValue v, itemsOutline_ofItems vs, Value.itemsOutline]

theorem fieldsOutline_ofFields : ∀ fields : List (String × Value),
    fieldsOutline (ofFields fields) = Value.fieldsOutline fields
  | [] => rfl
  | (k, v) :: rest => by
    rw [ofFields, fieldsOutline, outline_ofValue v, fieldsOutline_ofFields rest,
      Value.fieldsOutline]

end

end Json

namespace Value

theorem outline_toValue (n : WholeNumber) : n.toValue.outline = .leaf := by
  unfold WholeNumber.toValue
  split <;> rfl

theorem outline_ofText (s : String) : (ofText s).outline = .leaf := by
  unfold ofText
  split <;> rfl

mutual

/-- The value of a JSON tree has the outline of the tree. -/
theorem outline_ofJson : ∀ j : Json, (ofJson j).outline = j.outline
  | .null | .bool _ | .real _ => rfl
  | .whole n => outline_toValue n
  | .text s => outline_ofText s
  | .array items => congrArg Outline.array (itemsOutline_ofJsonItems items)
  | .object fields => congrArg Outline.object (fieldsOutline_ofJsonFields fields)

theorem itemsOutline_ofJsonItems : ∀ items : List Json,
    itemsOutline (ofJsonItems items) = Json.itemsOutline items
  | [] => rfl
  | j :: js => by
    rw [ofJsonItems, itemsOutline, outline_ofJson j, itemsOutline_ofJsonItems js,
      Json.itemsOutline]

theorem fieldsOutline_ofJsonFields : ∀ fields : List (String × Json),
    fieldsOutline (ofJsonFields fields) = Json.fieldsOutline fields
  | [] => rfl
  | (k, j) :: rest => by
    rw [ofJsonFields, fieldsOutline, outline_ofJson j, fieldsOutline_ofJsonFields rest,
      Json.fieldsOutline]

end

end Value

/-! ## Collected objects -/

namespace Value

mutual

/-- The value for a JSON tree, with the fields of every object inserted one after the other. -/
def collectJson : Json → Value
  | .array items => array (collectItems items)
  | .object fields => ofPairs (collectFields fields)
  | j => ofJson j

/-- The values for the elements of a JSON array. -/
def collectItems : List Json → List Value
  | [] => []
  | j :: js => collectJson j :: collectItems js

/-- The pairs for the fields of a JSON object. -/
def collectFields : List (String × Json) → List (String × Value)
  | [] => []
  | (k, j) :: rest => (k, collectJson j) :: collectFields rest

end

mutual

/-- Inserting the fields of a tree with distinct keys one after the other changes nothing. -/
theorem collectJson_eq : ∀ j : Json, j.DistinctKeys → collectJson j = ofJson j
  | .null, _ | .bool _, _ | .whole _, _ | .real _, _ | .text _, _ => rfl
  | .array items, h => congrArg array (collectItems_eq items h)
  | .object fields, ⟨hnodup, h⟩ => by
    have hkeys : (Fields.keys (ofJsonFields fields)).Nodup := by rwa [keys_ofJsonFields]
    rw [collectJson, collectFields_eq fields h, ofPairs, Fields.ofList_of_nodup hkeys, ofJson]

theorem collectItems_eq : ∀ items : List Json, Json.ItemsDistinct items →
    collectItems items = ofJsonItems items
  | [], _ => rfl
  | j :: js, ⟨h, hs⟩ => by
    rw [collectItems, collectJson_eq j h, collectItems_eq js hs, ofJsonItems]

theorem collectFields_eq : ∀ fields : List (String × Json), Json.FieldsDistinct fields →
    collectFields fields = ofJsonFields fields
  | [], _ => rfl
  | (k, j) :: rest, ⟨h, hs⟩ => by
    rw [collectFields, collectJson_eq j h, collectFields_eq rest hs, ofJsonFields]

end

end Value

namespace Json

mutual

/-- The JSON tree for a value, with the fields of every object inserted one after the other. -/
def collectValue : Value → Json
  | .array items => array (collectItems items)
  | .object fields => object (Fields.ofList (collectFields fields))
  | v => ofValue v

/-- The JSON trees for the elements of an array. -/
def collectItems : List Value → List Json
  | [] => []
  | v :: vs => collectValue v :: collectItems vs

/-- The pairs for the fields of an object. -/
def collectFields : List (String × Value) → List (String × Json)
  | [] => []
  | (k, v) :: rest => (k, collectValue v) :: collectFields rest

end

theorem keys_ofFields (fields : List (String × Value)) :
    Fields.keys (ofFields fields) = Fields.keys fields := by
  induction fields with
  | nil => rfl
  | cons field rest ih => exact congrArg (field.1 :: ·) ih

mutual

/-- Inserting the fields of a value with distinct keys one after the other changes nothing. -/
theorem collectValue_eq : ∀ v : Value, v.DistinctKeys → collectValue v = ofValue v
  | .null, _ | .bool _, _ | .int _, _ | .uint _, _ | .real _, _ | .text _, _ | .bytes _, _ => rfl
  | .array items, h => congrArg array (collectItems_eq items h)
  | .object fields, ⟨hnodup, h⟩ => by
    have hkeys : (Fields.keys (ofFields fields)).Nodup := by rwa [keys_ofFields]
    rw [collectValue, collectFields_eq fields h, Fields.ofList_of_nodup hkeys, ofValue]

theorem collectItems_eq : ∀ items : List Value, Value.ItemsDistinct items →
    collectItems items = ofItems items
  | [], _ => rfl
  | v :: vs, ⟨h, hs⟩ => by
    rw [collectItems, collectValue_eq v h, collectItems_eq vs hs, ofItems]

theorem collectFields_eq : ∀ fields : List (String × Value), Value.FieldsDistinct fields →
    collectFields fields = ofFields fields
  | [], _ => rfl
  | (k, v) :: rest, ⟨h, hs⟩ => by
    rw [collectFields, collectValue_eq v h, collectFields_eq rest hs, ofFields]

end

end Json

/-! ## From values to JSON and back -/

namespace Value

/-- Whether JSON can say what a value without members is. -/
def Sayable : Value → Prop
  | real x => x.isFinite = true
  | text s => DataUri.decode? s = none
  | _ => True

/-- What comes back of a value that is turned into a JSON tree. -/
def throughJson (v : Value) : Value :=
  ofJson (.ofValue v)

theorem ofJsonItems_eq_map (items : List Json) : ofJsonItems items = items.map ofJson := by
  induction items with
  | nil => rfl
  | cons j js ih => rw [ofJsonItems, ih, List.map_cons]

theorem ofJsonFields_eq_mapValues (fields : List (String × Json)) :
    ofJsonFields fields = Fields.mapValues ofJson fields := by
  induction fields with
  | nil => rfl
  | cons field rest ih =>
    rw [ofJsonFields, ih, Fields.mapValues, Fields.mapValues, List.map_cons]

theorem throughJson_array (items : List Value) :
    throughJson (array items) = array (items.map throughJson) := by
  rw [throughJson, Json.ofValue, ofJson, ofJsonItems_eq_map, Json.ofItems_eq_map, List.map_map]
  rfl

theorem throughJson_object (fields : List (String × Value)) :
    throughJson (object fields) = object (Fields.mapValues throughJson fields) := by
  rw [throughJson, Json.ofValue, ofJson, ofJsonFields_eq_mapValues, Json.ofFields_eq_mapValues,
    Fields.mapValues, Fields.mapValues, List.map_map]
  rfl

/-! ### Leaves -/

theorem throughJson_int (n : Int64) : throughJson (int n) = int n := by
  show WholeNumber.toValue (.ofInt n) = _
  have hlt : (WholeNumber.ofInt n).val < 0x8000_0000_0000_0000 := n.toInt_lt
  rw [WholeNumber.toValue, if_pos hlt]
  exact congrArg int n.ofInt_toInt

/-- An unsigned number comes back as a signed one where it fits. -/
theorem throughJson_uint_equals (n : UInt64) : (throughJson (uint n)).equals (uint n) = true := by
  have hval : (WholeNumber.ofUInt n).val = n.toNat := rfl
  show (WholeNumber.toValue (.ofUInt n)).equals _ = true
  rw [WholeNumber.toValue, hval]
  split
  · rename_i h
    have hlow : -0x8000_0000_0000_0000 ≤ (n.toNat : Int) := by omega
    simp only [equals, Int64.toInt_ofInt_of_le hlow h, beq_self_eq_true]
  · simp only [equals, Int.toNat_natCast, UInt64.ofNat_toNat, beq_self_eq_true]

/-- A real comes back as an equal one exactly if it is finite. -/
theorem throughJson_real_equals_iff (x : Binary64) :
    (throughJson (real x)).equals (real x) = true ↔ x.isFinite = true := by
  show (ofJson (.ofReal x)).equals (real x) = true ↔ _
  by_cases hfinite : x.isFinite = true
  · have hnan := Binary.isNaN_eq_false_of_isFinite hfinite
    rw [Json.ofReal, dif_pos hfinite]
    exact iff_of_true (Binary.equals_self_iff.2 hnan) hfinite
  · rw [Json.ofReal, dif_neg hfinite]
    exact iff_of_false Bool.false_ne_true hfinite

/-- A text comes back as an equal one exactly if it is not taken for bytes. -/
theorem throughJson_text_equals_iff (s : String) :
    (throughJson (text s)).equals (text s) = true ↔ DataUri.decode? s = none := by
  show (ofText s).equals (text s) = true ↔ _
  rw [ofText]
  cases DataUri.decode? s with
  | none => exact iff_of_true (beq_self_eq_true s) rfl
  | some bs => exact iff_of_false Bool.false_ne_true (Option.some_ne_none bs)

theorem throughJson_bytes (bs : List UInt8) : throughJson (bytes bs) = bytes bs := by
  show ofText (DataUri.encode bs) = _
  rw [ofText, DataUri.decode?_encode]

/-! ### Trees -/

/-- **A value comes back as an equal one exactly if JSON can say all that stands in it.** -/
theorem equals_throughJson_iff (v : Value) (hkeys : v.DistinctKeys) :
    v.throughJson.equals v = true ↔ ∀ w, StandsIn w v → w.Sayable := by
  induction v using memberInduction with
  | null => exact iff_of_true rfl ((forall_standsIn_iff rfl rfl).2 trivial)
  | bool b => exact iff_of_true (beq_self_eq_true b) ((forall_standsIn_iff rfl rfl).2 trivial)
  | int n =>
    rw [forall_standsIn_iff rfl rfl, throughJson_int]
    exact iff_of_true (beq_self_eq_true n) trivial
  | uint n =>
    rw [forall_standsIn_iff rfl rfl]
    exact iff_of_true (throughJson_uint_equals n) trivial
  | real x =>
    rw [forall_standsIn_iff rfl rfl]
    exact throughJson_real_equals_iff x
  | text s =>
    rw [forall_standsIn_iff rfl rfl]
    exact throughJson_text_equals_iff s
  | bytes bs =>
    rw [forall_standsIn_iff rfl rfl, throughJson_bytes]
    exact iff_of_true (beq_self_eq_true bs) trivial
  | array items ih =>
    have hitems := itemsDistinct_iff.1 hkeys
    have hself : Sayable (array items) := trivial
    rw [forall_standsIn_array, and_iff_right hself, throughJson_array, equals, equalItems_map_iff]
    exact forall₂_congr fun v hmem => ih v hmem (hitems v hmem)
  | object fields ih =>
    obtain ⟨hnodup, hdistinct⟩ := hkeys
    have hfields := fieldsDistinct_iff.1 hdistinct
    have hself : Sayable (object fields) := trivial
    have hlength : (Fields.mapValues throughJson fields).length = fields.length :=
      List.length_map ..
    rw [forall_standsIn_object, and_iff_right hself, throughJson_object, equals, hlength,
      beq_self_eq_true, Bool.true_and, equalFields_mapValues_iff hnodup]
    exact forall₂_congr fun field hmem => ih field hmem (hfields field hmem)

end Value

/-- **Conversions keep JSON trees, and values exactly as far as JSON can say them.**

* A JSON tree that is turned into a value is turned back into itself.
* A value that is turned into a JSON tree comes back as an equal one exactly if no real in it is
  infinite or not a number and no text in it is the URI of some bytes, at any depth. Keys do not
  matter.
* In both directions, and whatever gets lost, containers stay where they are, with the same keys in
  the same order. Inserting the fields of an object one after the other makes no difference.

Objects are maps, so the keys of every object are distinct. -/
theorem conversions_keep_trees :
    (∀ j : Json, Json.ofValue (.ofJson j) = j ∧ (Value.ofJson j).outline = j.outline ∧
      (j.DistinctKeys → Value.collectJson j = .ofJson j)) ∧
    ∀ v : Value, (Json.ofValue v).outline = v.outline ∧
      (v.DistinctKeys → Json.collectValue v = .ofValue v ∧
        ((Value.ofJson (.ofValue v)).equals v = true ↔
          (∀ x, Value.StandsIn (.real x) v → x.isFinite = true) ∧
            ∀ s, Value.StandsIn (.text s) v → DataUri.decode? s = none)) := by
  refine ⟨fun j => ⟨Json.ofValue_ofJson j, Value.outline_ofJson j, Value.collectJson_eq j⟩,
    fun v => ⟨Json.outline_ofValue v, fun hkeys => ⟨Json.collectValue_eq v hkeys, ?_⟩⟩⟩
  refine (Value.equals_throughJson_iff v hkeys).trans ⟨fun h => ?_, fun ⟨hreal, htext⟩ w hw => ?_⟩
  · exact ⟨fun x hx => h _ hx, fun s hs => h _ hs⟩
  · cases w with
    | real x => exact hreal x hw
    | text s => exact htext s hw
    | _ => trivial

/-- A URI as a key, with a small unsigned number, bytes, the negative zero and a text that only
starts like a URI under it, comes back as an equal value. The same URI as a text inside of an array
does not. -/
theorem conversions_keep_trees_uri :
    let uri := "data:application/octet-stream;base64,AAE="
    let kept : Value := .object [(uri, .array [.uint 5, .bytes [0, 1], .real ⟨0x8000000000000000⟩,
      .text "data:A"])]
    let lost : Value := .object [("k", .array [.null, .text uri])]
    (kept.DistinctKeys ∧ (Value.ofJson (.ofValue kept)).equals kept = true ∧
      ∀ s, Value.StandsIn (.text s) kept → DataUri.decode? s = none) ∧
    (lost.DistinctKeys ∧ Value.StandsIn (.text uri) lost ∧
      DataUri.decode? uri = some [0, 1] ∧ ¬(Value.ofJson (.ofValue lost)).equals lost = true) := by
  intro uri kept lost
  have hkept : kept.DistinctKeys :=
    ⟨by decide, ⟨trivial, trivial, trivial, trivial, trivial⟩, trivial⟩
  have hlost : lost.DistinctKeys := ⟨by decide, ⟨trivial, trivial, trivial⟩, trivial⟩
  have hback : (Value.ofJson (.ofValue kept)).equals kept = true := by decide
  have huri : DataUri.decode? uri = some [0, 1] := by decide
  have hstands : Value.StandsIn (.text uri) lost :=
    .field List.mem_cons_self (.item (List.mem_cons_of_mem _ List.mem_cons_self) .self)
  obtain ⟨-, hiff⟩ := (conversions_keep_trees.2 kept).2 hkept
  obtain ⟨-, hiff'⟩ := (conversions_keep_trees.2 lost).2 hlost
  refine ⟨⟨hkept, hback, (hiff.1 hback).2⟩, hlost, hstands, huri, fun hequal => ?_⟩
  have hnone := (hiff'.1 hequal).2 uri hstands
  rw [huri] at hnone
  cases hnone

end WireTree
