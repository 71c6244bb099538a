import WireTree.Proofs.Body
import WireTree.Proofs.Grammar
import WireTree.Proofs.RealWidths
import WireTree.Proofs.ValueForms

/-!
# What the body of a value spells

The bytes that are written are in the grammar that is read.

* `Value.wire` is the tree that the body of a value spells. An integer is an unsigned number of 64
  bits there exactly if it takes all eight bytes and is not negative.

Results:
* **`spells_body`**: the body of a value spells its tree, under either policy for unknown tags.
* `nesting_wire`: the tree nests as deeply as the value.
* **`denote_wire`**: the tree of a value with distinct keys stands for the normal form of the value.
-/

namespace WireTree

open Wire (Payload Spells SpellsItems SpellsPairs)

namespace Value

/-- The tree of an unsigned number. -/
def wireOfUInt (n : UInt64) : Wire :=
  if Width.ofUInt n = .w64 then .uinteger n else .integer n.toInt64

/-- The tree of a signed number. -/
def wireOfInt (n : Int64) : Wire :=
  if 0 ≤ n.toInt then wireOfUInt n.toUInt64 else .integer n

mutual

/-- The tree that the body of a value spells. -/
def wire : Value → Wire
  | null => .null
  | bool b => .bool b
  | int n => wireOfInt n
  | uint n => wireOfUInt n
  | real x => .real x
  | text s => .text s
  | bytes bs => .bytes bs
  | array items => .array (itemsWire items)
  | object fields => .object (fieldsWire fields)

/-- The trees of the elements of an array. -/
def itemsWire : List Value → List Wire
  | [] => []
  | v :: vs => v.wire :: itemsWire vs

/-- The trees of the values of an object, under the same keys. -/
def fieldsWire : List (String × Value) → List (String × Wire)
  | [] => []
  | (k, v) :: rest => (k, v.wire) :: fieldsWire rest

end

theorem length_itemsWire (items : List Value) : (itemsWire items).length = items.length := by
  induction items with
  | nil => rfl
  | cons v vs ih => rw [itemsWire, List.length_cons, List.length_cons, ih]

theorem length_fieldsWire (fields : List (String × Value)) :
    (fieldsWire fields).length = fields.length := by
  induction fields with
  | nil => rfl
  | cons pair rest ih => rw [fieldsWire, List.length_cons, List.length_cons, ih]

end Value

/-! ## Spelling -/

variable {policy : UnknownTags}

theorem counted_counted {content : List UInt8}
    (h : (counted content).length < 0x1_0000_0000_0000_0000) :
    Wire.Counted content (counted content) := by
  rw [counted, List.length_append] at h
  exact .mk (Varint.form_encode _) (toNat_ofNat_of_lt (by omega))

/-- The word of an unsigned number is read back as the number, of the kind that the width says. -/
theorem payload_uint {n : UInt64} {w : Width} (h : n.toNat < 2 ^ w.bits) :
    Payload policy (.uint w) (if w = .w64 then .uinteger n else .integer n.toInt64)
      (w.encode (n.toBitVec.setWidth w.bits)) := by
  by_cases hw : w = .w64
  · subst hw
    have hp : Payload policy _ _ _ := .uint64 (n.toBitVec.setWidth 64)
    rwa [BitVec.setWidth_eq] at hp
  · have hp : Payload policy _ _ _ := .uint hw (n.toBitVec.setWidth w.bits)
    have hn := congrArg UInt64.toInt64 (ofBitVec_setWidth_setWidth h)
    rw [if_neg hw, ← hn]
    exact hp

theorem spells_bodyOfUInt (n : UInt64) :
    Spells policy (Value.wireOfUInt n) (Value.bodyOfUInt n) :=
  .tagged (payload_uint (Width.lt_two_pow_ofUInt n))

theorem spells_bodyOfInt (n : Int64) : Spells policy (Value.wireOfInt n) (Value.bodyOfInt n) := by
  by_cases h : 0 ≤ n.toInt
  · rw [Value.wireOfInt, Value.bodyOfInt, if_pos h, if_pos h]
    exact spells_bodyOfUInt n.toUInt64
  · have hn := ofBitVec_signExtend_setWidth (Width.neg_two_pow_le_ofNegative n) (by omega)
    have hp : Payload policy _ _ _ :=
      .int (Width.ofNegative n) (n.toBitVec.setWidth (Width.ofNegative n).bits)
    rw [hn] at hp
    rw [Value.wireOfInt, Value.bodyOfInt, if_neg h, if_neg h]
    exact .tagged hp

/-- A real is read back with the same bits from either width. -/
theorem spells_bodyOfReal (x : Binary64) : Spells policy (.real x) (Value.bodyOfReal x) := by
  rw [Value.bodyOfReal]
  cases hx : x.narrow? with
  | none => exact .tagged (.double x)
  | some y =>
    rw [← Binary.widen_of_narrow? hx]
    exact .tagged (.single y)

mutual

/-- **The body of a value spells its tree.** -/
theorem spells_body : ∀ v : Value, v.body.length < 0x1_0000_0000_0000_0000 →
    Spells policy v.wire v.body
  | .null, _ => .tagged .null
  | .bool false, _ => .tagged (.bool 0)
  | .bool true, _ => .tagged (.bool 1)
  | .int n, _ => spells_bodyOfInt n
  | .uint n, _ => spells_bodyOfUInt n
  | .real x, _ => spells_bodyOfReal x
  | .text _, h => .tagged (.text (counted_counted (Nat.lt_of_succ_lt h)))
  | .bytes _, h => .tagged (.bytes (counted_counted (Nat.lt_of_succ_lt h)))
  | .array items, h => by
    rw [Value.body, List.length_cons, List.length_append] at h
    have hitems := spells_itemsBody items (by omega)
    -- The count does not wrap, as every element takes a byte of the body.
    have hlen := Wire.length_le_of_spellsItems hitems
    rw [Value.length_itemsWire] at hlen
    refine .tagged (.array (Varint.form_encode _) ?_ hitems)
    rw [Value.length_itemsWire]
    exact toNat_ofNat_of_lt (by omega)
  | .object fields, h => by
    rw [Value.body, List.length_cons, List.length_append] at h
    have hfields := spells_fieldsBody fields (by omega)
    have hlen := Wire.two_mul_length_le_of_spellsPairs hfields
    rw [Value.length_fieldsWire] at hlen
    refine .tagged (.object (Varint.form_encode _) ?_ hfields)
    rw [Value.length_fieldsWire]
    exact toNat_ofNat_of_lt (by omega)

theorem spells_itemsBody : ∀ items : List Value,
    (Value.itemsBody items).length < 0x1_0000_0000_0000_0000 →
    SpellsItems policy (Value.itemsWire items) (Value.itemsBody items)
  | [], _ => .nil
  | v :: vs, h => by
    rw [Value.itemsBody, List.length_append] at h
    exact .cons (spells_body v (by omega)) (spells_itemsBody vs (by omega))

theorem spells_fieldsBody : ∀ fields : List (String × Value),
    (Value.fieldsBody fields).length < 0x1_0000_0000_0000_0000 →
    SpellsPairs policy (Value.fieldsWire fields) (Value.fieldsBody fields)
  | [], _ => .nil
  | (k, v) :: rest, h => by
    rw [Value.fieldsBody, List.length_append, List.length_append] at h
    exact .cons (counted_counted (by omega)) (spells_body v (by omega))
      (spells_fieldsBody rest (by omega))

end

/-! ## The tree of a value -/

namespace Value

theorem nesting_wireOfUInt (n : UInt64) : (wireOfUInt n).nesting = 0 := by
  unfold wireOfUInt
  split <;> rfl

theorem nesting_wireOfInt (n : Int64) : (wireOfInt n).nesting = 0 := by
  unfold wireOfInt
  split
  · exact nesting_wireOfUInt n.toUInt64
  · rfl

mutual

/-- The tree nests as deeply as the value. -/
theorem nesting_wire : ∀ v : Value, v.wire.nesting = v.nesting
  | null | bool _ | real _ | text _ | bytes _ => rfl
  | int n => nesting_wireOfInt n
  | uint n => nesting_wireOfUInt n
  | array items => by rw [wire, Wire.nesting, itemsNesting_wire items, nesting]
  | object fields => by rw [wire, Wire.nesting, fieldsNesting_wire fields, nesting]

theorem itemsNesting_wire : ∀ items : List Value,
    Wire.itemsNesting (itemsWire items) = itemsNesting items
  | [] => rfl
  | v :: vs => by
    rw [itemsWire, Wire.itemsNesting, nesting_wire v, itemsNesting_wire vs, itemsNesting]

theorem fieldsNesting_wire : ∀ fields : List (String × Value),
    Wire.pairsNesting (fieldsWire fields) = fieldsNesting fields
  | [] => rfl
  | (k, v) :: rest => by
    rw [fieldsWire, Wire.pairsNesting, nesting_wire v, fieldsNesting_wire rest, fieldsNesting]

end

/-- An unsigned number that takes less than eight bytes fits a signed one. -/
theorem denote_wireOfUInt (n : UInt64) : (wireOfUInt n).denote = ofUInt n := by
  unfold wireOfUInt
  split
  · rfl
  · rename_i hw
    have hlt := Width.lt_two_pow_ofUInt n
    have hn : n.toNat < 0x8000_0000_0000_0000 := by
      cases h : Width.ofUInt n with
      | w64 => exact absurd h hw
      | _ =>
        simp only [h, Width.bits] at hlt
        omega
    rw [Wire.denote, ofUInt, if_pos hn]

theorem denote_wireOfInt (n : Int64) : (wireOfInt n).denote = int n := by
  unfold wireOfInt
  split
  · rename_i h
    have hn := toNat_toUInt64_of_nonneg h
    have hlt := n.toInt_lt
    rw [denote_wireOfUInt, ofUInt, if_pos (by omega), Int64.toInt64_toUInt64]
  · rfl

mutual

/-- **The tree of a value stands for its normal form.** Keys that are distinct stay in place. -/
theorem denote_wire : ∀ v : Value, v.DistinctKeys → v.wire.denote = v.normal
  | null, _ | bool _, _ | real _, _ | text _, _ | bytes _, _ => rfl
  | int n, _ => denote_wireOfInt n
  | uint n, _ => denote_wireOfUInt n
  | array items, hkeys => by rw [wire, Wire.denote, denoteItems_wire items hkeys, normal]
  | object fields, ⟨hnodup, hkeys⟩ => by
    have hkeys' : (Fields.keys (normalFields fields)).Nodup := by
      rwa [keys_normalFields]
    rw [wire, Wire.denote, denotePairs_wire fields hkeys, normal, ofPairs,
      Fields.ofList_of_nodup hkeys']

theorem denoteItems_wire : ∀ items : List Value, ItemsDistinct items →
    Wire.denoteItems (itemsWire items) = normalItems items
  | [], _ => rfl
  | v :: vs, ⟨hv, hvs⟩ => by
    rw [itemsWire, Wire.denoteItems, denote_wire v hv, denoteItems_wire vs hvs, normalItems]

theorem denotePairs_wire : ∀ fields : List (String × Value), FieldsDistinct fields →
    Wire.denotePairs (fieldsWire fields) = normalFields fields
  | [], _ => rfl
  | (k, v) :: rest, ⟨hv, hvs⟩ => by
    rw [fieldsWire, Wire.denotePairs, denote_wire v hv, denotePairs_wire rest hvs, normalFields]

end

end Value

end WireTree
