import WireTree.Proofs.Normalisation
import WireTree.Proofs.RealRounding
import WireTree.Proofs.ValueEquality

/-!
# What equal values have in common

No caller can tell equal values apart: not by their sizes, not by what they answer, and not by what
is decoded from their buffers.

* `Value.AnswersAlike v w`: all accessors give the same for both values, or equal things where what
  they give has values or reals in it.

Equal values may hold a number in different kinds of integers, the two zeros and fields in different
orders. The size of a value counts the fields in their order, but as a sum, and the keys of equal
objects are the same up to order. A zero of either sign takes 32 bits, and a number the same kind on
the wire from either kind of value.

Results:
* `size_eq_of_equals`: equal values have the same size.
* `Alike.answersAlike`: values that are alike with equal members answer alike.
* **`equals_indistinguishable`**: both, what is decoded from the buffer of either, and equality with
  an integer is what the accessors say.
-/

namespace WireTree

namespace Fields

variable {α : Type} {f g : List (String × α)}

/-- A sum over fields is a sum over the keys, of what is found under them. -/
theorem sum_eq_sum_keys (hf : (keys f).Nodup) (weight : String × α → Nat) :
    (f.map weight).sum =
      ((keys f).map fun key => (find? key f).elim 0 fun x => weight (key, x)).sum := by
  rw [keys, List.map_map]
  refine congrArg List.sum (List.map_congr_left fun field hmem => ?_)
  rw [Function.comp_apply, find?_of_mem hf hmem, Option.elim_some]

/-- Fields that correspond weigh the same, as soon as related values do under every key. -/
theorem sum_eq_of_corresponds {R : α → α → Prop} (hf : (keys f).Nodup) (hg : (keys g).Nodup)
    (h : Corresponds R (find? · f) (find? · g)) (weight : String × α → Nat)
    (hR : ∀ key x y, R x y → weight (key, x) = weight (key, y)) :
    (f.map weight).sum = (g.map weight).sum := by
  rw [sum_eq_sum_keys hf, sum_eq_sum_keys hg, ((perm_keys hf hg h).symm.map _).sum_eq]
  refine congrArg List.sum (List.map_congr_left fun key _ => ?_)
  cases hx : find? key f with
  | none =>
    have hy : find? key g = none := (h.absent key).1 hx
    rw [hy]
  | some x =>
    obtain ⟨y, hy, hxy⟩ : ∃ y, find? key g = some y ∧ R x y := h.exists_right hx
    rw [hy]
    exact hR key x y hxy

end Fields

namespace Value

/-! ## Normal forms -/

theorem ofUInt_eq_int {u : UInt64} {i : Int64} (h : i.toInt = u.toNat) : ofUInt u = int i := by
  have hlt := i.toInt_lt
  have hu : u.toNat < 0x8000_0000_0000_0000 := by omega
  rw [ofUInt, if_pos hu, int.injEq, ← Int64.toInt_inj, toInt_toInt64_of_lt hu, h]

/-- The two kinds of integers that hold a number have the same normal form. -/
theorem normal_eq_of_asNumber? {v w : Value} {n : Int} (hv : v.asNumber? = some n)
    (hw : w.asNumber? = some n) : v.normal = w.normal := by
  cases v with
  | int a =>
    cases w with
    | int b =>
      have hab : a.toInt = b.toInt := Option.some.inj (hv.trans hw.symm)
      rw [Int64.toInt_inj.1 hab]
    | uint b => exact (ofUInt_eq_int (Option.some.inj (hv.trans hw.symm))).symm
    | _ => cases hw
  | uint a =>
    cases w with
    | int b => exact ofUInt_eq_int (Option.some.inj (hw.trans hv.symm))
    | uint b =>
      have hab : (a.toNat : Int) = b.toNat := Option.some.inj (hv.trans hw.symm)
      rw [UInt64.toNat_inj.1 (Int.ofNat_inj.1 hab)]
    | _ => cases hw
  | _ => cases hv

/-! ## Sizes -/

theorem ofReal_eq_of_equals {x y : Binary64} (h : x.equals y = true) :
    Tag.ofReal x = Tag.ofReal y := by
  obtain ⟨-, rfl | ⟨hx, hy⟩⟩ := Binary.equals_iff.1 h
  · rfl
  · rw [Tag.ofReal, Tag.ofReal, Binary.narrow?_of_isZero hx, Binary.narrow?_of_isZero hy,
      if_pos Option.isSome_some, if_pos Option.isSome_some]

theorem length_itemsBody_eq {vs ws : List Value}
    (h : List.Forall₂ (fun v w => v.size = w.size) vs ws) :
    (itemsBody vs).length = (itemsBody ws).length := by
  induction h with
  | nil => rfl
  | cons hvw _ ih =>
    rw [itemsBody, itemsBody, List.length_append, List.length_append, length_body, length_body, hvw,
      ih]

/-- Values that are alike have the same size if their members do. -/
theorem Alike.size_eq {v w : Value} (hv : v.DistinctKeys) (hw : w.DistinctKeys)
    (h : Alike (fun v' w' => v'.size = w'.size) v w) : v.size = w.size := by
  cases h with
  | null | bool | text | bytes => rfl
  | real h => rw [size, size, ofReal_eq_of_equals h]
  | number hv hw =>
    -- Both are written like their normal form, which is the same.
    rw [← length_body, ← length_body, ← body_normal, normal_eq_of_asNumber? hv hw, body_normal]
  | array h =>
    have hitems := corresponds_getElem?_iff.1 h
    rw [size, size, itemsSize_eq, itemsSize_eq, hitems.length_eq, length_itemsBody_eq hitems]
  | object h =>
    have hlen := (Fields.perm_keys hv.1 hw.1 h).length_eq
    rw [Fields.length_keys, Fields.length_keys] at hlen
    have hsum := Fields.sum_eq_of_corresponds hv.1 hw.1 h fieldSize fun key v' w' h' =>
      congrArg (countedSize key.utf8ByteSize + ·) h'
    rw [size, size, fieldsSize_eq, fieldsSize_eq, hlen, length_fieldsBody, length_fieldsBody, hsum]

theorem size_eq_of_equals {v w : Value} (hv : v.DistinctKeys) (hw : w.DistinctKeys)
    (h : v.equals w = true) : v.size = w.size := by
  induction v using layerInduction generalizing w with
  | h v ih =>
    refine Alike.size_eq hv hw (((equals_iff_alike hv hw).1 h).imp fun v' hv' w' hw' h' => ?_)
    exact ih v' hv' (hv.of_mem hv') (hw.of_mem hw') h'

/-! ## Answers -/

/-- The accessors give the same for both values, or equal things where these hold values or
reals. -/
structure AnswersAlike (v w : Value) : Prop where
  isNull : v.isNull = w.isNull
  asBool : v.asBool? = w.asBool?
  asInt : v.asInt? = w.asInt?
  asUInt : v.asUInt? = w.asUInt?
  asReal : Option.Rel (fun x y => x.equals y = true) v.asReal? w.asReal?
  asText : v.asText? = w.asText?
  asBytes : v.asBytes? = w.asBytes?
  asArray : Option.Rel (List.Forall₂ fun v' w' => v'.equals w' = true) v.asArray? w.asArray?
  asObject : Option.Rel (fun f g => ∀ key, key ∈ Fields.keys f ↔ key ∈ Fields.keys g)
    v.asObject? w.asObject?
  get : ∀ key, Option.Rel (fun v' w' => v'.equals w' = true) (v.get? key) (w.get? key)

theorem asInt?_eq_some_iff {v : Value} {i : Int64} :
    v.asInt? = some i ↔ v.asNumber? = some i.toInt := by
  cases v with
  | int n => rw [asInt?, asNumber?, Option.some_inj, Option.some_inj, Int64.toInt_inj]
  | uint n =>
    have hi := i.toInt_lt
    rw [asInt?, asNumber?, Option.some_inj]
    split
    · rename_i hn
      rw [Option.some_inj, ← Int64.toInt_inj, toInt_toInt64_of_lt hn]
    · simp only [reduceCtorEq, false_iff]
      omega
  | _ => simp only [asInt?, asNumber?, reduceCtorEq]

theorem asUInt?_eq_some_iff {v : Value} {u : UInt64} :
    v.asUInt? = some u ↔ v.asNumber? = some (u.toNat : Int) := by
  cases v with
  | int n =>
    rw [asUInt?, asNumber?, Option.some_inj]
    split
    · rename_i hn
      have hnat := toNat_toUInt64_of_nonneg hn
      rw [Option.some_inj, ← UInt64.toNat_inj]
      omega
    · simp only [reduceCtorEq, false_iff]
      omega
  | uint n =>
    rw [asUInt?, asNumber?, Option.some_inj, Option.some_inj, Int.ofNat_inj, UInt64.toNat_inj]
  | _ => simp only [asUInt?, asNumber?, reduceCtorEq]

/-- Values that are alike with equal members answer alike. -/
theorem Alike.answersAlike {v w : Value} (h : Alike (fun v' w' => v'.equals w' = true) v w) :
    AnswersAlike v w := by
  cases h with
  | null => exact ⟨rfl, rfl, rfl, rfl, .none, rfl, rfl, .none, .none, fun _ => .none⟩
  | bool b => exact ⟨rfl, rfl, rfl, rfl, .none, rfl, rfl, .none, .none, fun _ => .none⟩
  | text s => exact ⟨rfl, rfl, rfl, rfl, .none, rfl, rfl, .none, .none, fun _ => .none⟩
  | bytes bs => exact ⟨rfl, rfl, rfl, rfl, .none, rfl, rfl, .none, .none, fun _ => .none⟩
  | real h => exact ⟨rfl, rfl, rfl, rfl, .some h, rfl, rfl, .none, .none, fun _ => .none⟩
  | array h =>
    exact ⟨rfl, rfl, rfl, rfl, .none, rfl, rfl, .some (corresponds_getElem?_iff.1 h), .none,
      fun _ => .none⟩
  | object h =>
    exact ⟨rfl, rfl, rfl, rfl, .none, rfl, rfl, .none, .some (Fields.mem_keys_iff h), h.rel⟩
  | number hv hw =>
    have hint : v.asInt? = w.asInt? := Option.ext fun i => by
      rw [asInt?_eq_some_iff, asInt?_eq_some_iff, hv, hw]
    have huint : v.asUInt? = w.asUInt? := Option.ext fun u => by
      rw [asUInt?_eq_some_iff, asUInt?_eq_some_iff, hv, hw]
    cases v with
    | int a | uint a =>
      cases w with
      | int b | uint b =>
        exact ⟨rfl, rfl, hint, huint, .none, rfl, rfl, .none, .none, fun _ => .none⟩
      | _ => cases hw
    | _ => cases hv

/-! ## Equal values -/

/-- **No caller can tell equal values apart.** They have the same size. The accessors agree: on
reals numerically, on arrays element by element, on objects with the same keys, and what is found
under a key is equal. If the header can hold the size, the buffer of one value is decoded to a value
that equals the other, under all options that allow its nesting.

To equal a signed or an unsigned number is to answer with that number when it is asked for.

Objects are maps, so the keys of every object in the values are distinct. -/
theorem equals_indistinguishable :
    (∀ v w : Value, v.DistinctKeys → w.DistinctKeys → v.equals w = true →
      v.encodedSize = w.encodedSize ∧ AnswersAlike v w ∧
      (v.encodedSize ≤ 0xffff_ffff → ∃ bytes, serialize v = .ok bytes ∧
        ∀ o : Options, v.nesting ≤ o.maxDepth.toNat →
          ∃ u, decode o bytes = .ok u ∧ u.equals w = true)) ∧
    (∀ (v : Value) i, v.equals (int i) = true ↔ v.asInt? = some i) ∧
    ∀ (v : Value) u, v.equals (uint u) = true ↔ v.asUInt? = some u := by
  refine ⟨fun v w hv hw h => ⟨congrArg (headerSize + ·) (size_eq_of_equals hv hw h),
    ((equals_iff_alike hv hw).1 h).answersAlike, fun hsize => ?_⟩, fun v i => ?_, fun v u => ?_⟩
  · have hlt : v.encodedSize < 0x1_0000_0000 := Nat.lt_succ_of_le hsize
    refine ⟨frame v.body, serialize_eq_ok_iff.2 ⟨hlt, rfl⟩, fun o hnest => ?_⟩
    refine ⟨v.normal, decode_frame_body hlt hv hnest, ?_⟩
    rw [normal_equals]
    exact h
  · rw [asInt?_eq_some_iff]
    exact equals_iff_of_asNumber?_right rfl
  · rw [asUInt?_eq_some_iff]
    exact equals_iff_of_asNumber?_right rfl

/-- An unsigned three and the negative zero against a signed three and the positive zero, in fields
of another order: the buffer of the first object is decoded to what equals the second. -/
theorem equals_indistinguishable_zeros :
    let v : Value := .object [("n", .uint 3), ("z", .array [.real ⟨0x8000_0000_0000_0000⟩])]
    let w : Value := .object [("z", .array [.real ⟨0⟩]), ("n", .int 3)]
    (v.DistinctKeys ∧ w.DistinctKeys ∧ v.equals w = true) ∧
      v.encodedSize = w.encodedSize ∧ (v.encodedSize ≤ 0xffff_ffff ∧ v.nesting ≤ 2) ∧
      ∃ bytes, serialize v = .ok bytes ∧
        ∃ u, decode { maxDepth := 2 } bytes = .ok u ∧ u.equals w = true := by
  intro v w
  have hv : v.DistinctKeys := ⟨by decide, trivial, ⟨trivial, trivial⟩, trivial⟩
  have hw : w.DistinctKeys := ⟨by decide, ⟨trivial, trivial⟩, trivial, trivial⟩
  have hvw : v.equals w = true := by decide
  have hsize : v.encodedSize ≤ 0xffff_ffff := by decide
  obtain ⟨hsizes, -, hbuffer⟩ := equals_indistinguishable.1 v w hv hw hvw
  obtain ⟨bytes, hbytes, hdecode⟩ := hbuffer hsize
  refine ⟨⟨hv, hw, hvw⟩, hsizes, ⟨hsize, by decide⟩, bytes, hbytes, ?_⟩
  exact hdecode { maxDepth := 2 } (by decide)

end Value

end WireTree
