import Mathlib.Data.List.Perm.Subperm
import WireTree.Proofs.IntegerWidths
import WireTree.Proofs.ValueMembers

/-!
# Equality as a relation

What it takes for two values to be equal, one layer at a time.

* `Corresponds R f g`: two lookups answer alike. They have something at the same places, and what
  they have at a place is related by `R`. The places of arrays are positions, those of objects keys.
* `Value.asNumber?` is the number that a value of either integer kind holds.
* `Value.members` are the values directly in a container.
* `Value.Alike R v w`: the values are of the same kind and hold the same, as far as their own layer
  goes, and their members correspond by `R`.

Equality looks at objects from one side only: it counts the fields and looks the keys of the first
up in the second. As the keys are distinct, equally many fields have the same keys then
(`equals_object_iff`). So two values are equal exactly if they are alike with equal members
(`equals_iff_alike`), and this does not tell the sides apart. Every law of equality is a law of one
layer, lifted by induction over members.

Results:
* `equals_symm`, `equals_trans`, `equals_self_iff`: equality is symmetric and transitive, and
  reflexive exactly for values in which all reals are numbers.
* `equals_normal`, `normal_equals`: at any depth equality sees the number of an integer and not its
  kind, so a normal form equals what the value does.
* **`equals_partial_equivalence`**: these laws, and what equality does not tell apart.
-/

namespace WireTree

/-! ## Lookups that correspond -/

/-- The lookups have something at the same places, and what they have there is related. -/
structure Corresponds {κ α β : Type} (R : α → β → Prop) (f : κ → Option α) (g : κ → Option β) :
    Prop where
  absent : ∀ k, f k = none ↔ g k = none
  related : ∀ k x y, f k = some x → g k = some y → R x y

namespace Corresponds

variable {κ α β γ : Type} {R : α → β → Prop} {f : κ → Option α} {g : κ → Option β}
  {h : κ → Option γ}

/-- What is in one lookup has a counterpart in the other. -/
theorem exists_right (hfg : Corresponds R f g) {k : κ} {x : α} (hx : f k = some x) :
    ∃ y, g k = some y ∧ R x y := by
  cases hy : g k with
  | none =>
    rw [(hfg.absent k).2 hy] at hx
    cases hx
  | some y => exact ⟨y, rfl, hfg.related k x y hx hy⟩

/-- What the lookups have at a place is related, or neither has anything there. -/
theorem rel (hfg : Corresponds R f g) (k : κ) : Option.Rel R (f k) (g k) := by
  cases hx : f k with
  | none =>
    rw [(hfg.absent k).1 hx]
    exact .none
  | some x =>
    obtain ⟨y, hy, hxy⟩ := hfg.exists_right hx
    rw [hy]
    exact .some hxy

theorem imp {S : α → β → Prop} (hfg : Corresponds R f g)
    (hRS : ∀ k x y, f k = some x → g k = some y → R x y → S x y) : Corresponds S f g where
  absent := hfg.absent
  related k x y hx hy := hRS k x y hx hy (hfg.related k x y hx hy)

theorem flip (hfg : Corresponds R f g) : Corresponds (fun y x => R x y) g f where
  absent k := (hfg.absent k).symm
  related k y x hy hx := hfg.related k x y hx hy

theorem trans {S : β → γ → Prop} {T : α → γ → Prop} (hfg : Corresponds R f g)
    (hgh : Corresponds S g h)
    (hRS : ∀ k x y z, f k = some x → g k = some y → h k = some z → R x y → S y z → T x z) :
    Corresponds T f h where
  absent k := (hfg.absent k).trans (hgh.absent k)
  related k x z hx hz := by
    obtain ⟨y, hy, hxy⟩ := hfg.exists_right hx
    exact hRS k x y z hx hy hz hxy (hgh.related k y z hy hz)

end Corresponds

theorem corresponds_self_iff {κ α : Type} {R : α → α → Prop} {f : κ → Option α} :
    Corresponds R f f ↔ ∀ k x, f k = some x → R x x := by
  constructor
  · intro h k x hx
    exact h.related k x x hx hx
  · intro h
    refine ⟨fun _ => Iff.rfl, fun k x y hx hy => ?_⟩
    rw [hx] at hy
    cases hy
    exact h k x hx

/-- Lists correspond place by place if they are equally long and related there. -/
theorem corresponds_getElem?_iff {α β : Type} {R : α → β → Prop} {xs : List α} {ys : List β} :
    Corresponds R (fun i : Nat => xs[i]?) (fun i => ys[i]?) ↔ List.Forall₂ R xs ys := by
  rw [List.forall₂_iff_get]
  constructor
  · intro h
    have hlen : ∀ i, xs.length ≤ i ↔ ys.length ≤ i := fun i => by
      simpa using h.absent i
    refine ⟨Nat.le_antisymm ((hlen _).2 (Nat.le_refl _)) ((hlen _).1 (Nat.le_refl _)), ?_⟩
    intro i hx hy
    exact h.related i _ _ (List.getElem?_eq_getElem hx) (List.getElem?_eq_getElem hy)
  · rintro ⟨hlen, h⟩
    refine ⟨fun i => by simp [hlen], fun i x y hx hy => ?_⟩
    obtain ⟨hi, rfl⟩ := List.getElem?_eq_some_iff.1 hx
    obtain ⟨hj, rfl⟩ := List.getElem?_eq_some_iff.1 hy
    exact h i hi hj

/-! ## Fields under the same keys -/

namespace Fields

variable {α β : Type} {f : List (String × α)} {g : List (String × β)} {key : String}

theorem find?_eq_none_iff : find? key f = none ↔ key ∉ keys f := by
  induction f with
  | nil => simp [find?, keys]
  | cons field rest ih =>
    obtain ⟨k, v⟩ := field
    simp only [find?, keys, List.map_cons, List.mem_cons, not_or] at ih ⊢
    by_cases hk : k = key
    · simp [hk]
    · simp [hk, ih, Ne.symm hk]

theorem find?_eq_some_iff {value : α} (hf : (keys f).Nodup) :
    find? key f = some value ↔ (key, value) ∈ f :=
  ⟨mem_of_find?, find?_of_mem hf⟩

/-- The order of fields does not matter to lookups. -/
theorem find?_perm {f' : List (String × α)} (hf : (keys f).Nodup) (h : f.Perm f') (key : String) :
    find? key f = find? key f' := by
  have hf' : (keys f').Nodup := (h.map Prod.fst).nodup_iff.1 hf
  refine Option.ext fun value => ?_
  rw [find?_eq_some_iff hf, find?_eq_some_iff hf', h.mem_iff]

/-- Lookups that correspond have the same keys. -/
theorem mem_keys_iff {R : α → β → Prop} (h : Corresponds R (find? · f) (find? · g))
    (key : String) : key ∈ keys f ↔ key ∈ keys g := by
  have hkey := h.absent key
  rwa [find?_eq_none_iff, find?_eq_none_iff, not_iff_not] at hkey

theorem perm_keys {R : α → β → Prop} (hf : (keys f).Nodup) (hg : (keys g).Nodup)
    (h : Corresponds R (find? · f) (find? · g)) : (keys f).Perm (keys g) :=
  (List.perm_ext_iff_of_nodup hf hg).2 (mem_keys_iff h)

theorem length_keys (f : List (String × α)) : (keys f).length = f.length :=
  List.length_map ..

/-- As many distinct keys as there are, all of them among others, are the others. -/
theorem mem_keys_iff_of_subset (hf : (keys f).Nodup) (hlen : f.length = g.length)
    (hsub : ∀ key ∈ keys f, key ∈ keys g) (key : String) : key ∈ keys f ↔ key ∈ keys g := by
  have hle : (keys g).length ≤ (keys f).length := by
    rw [length_keys, length_keys, hlen]
  exact ((hf.subperm hsub).perm_of_length_le hle).mem_iff

end Fields

namespace Value

/-! ## One layer -/

/-- The number that a value of either integer kind holds. -/
def asNumber? : Value → Option Int
  | int n => some n.toInt
  | uint n => some n.toNat
  | _ => none

/-- The values directly in a container. -/
def members : Value → List Value
  | array items => items
  | object fields => fields.map Prod.snd
  | _ => []

/-- The values are of the same kind and hold the same, and their members correspond by `R`. -/
inductive Alike (R : Value → Value → Prop) : Value → Value → Prop
  | null : Alike R null null
  | bool (b : Bool) : Alike R (bool b) (bool b)
  | real {x y : Binary64} (h : x.equals y = true) : Alike R (real x) (real y)
  | text (s : String) : Alike R (text s) (text s)
  | bytes (bs : List UInt8) : Alike R (bytes bs) (bytes bs)
  | array {vs ws : List Value} (h : Corresponds R (fun i : Nat => vs[i]?) (fun i => ws[i]?)) :
      Alike R (array vs) (array ws)
  | object {f g : List (String × Value)} (h : Corresponds R (Fields.find? · f) (Fields.find? · g)) :
      Alike R (object f) (object g)
  | number {v w : Value} {n : Int} (hv : v.asNumber? = some n) (hw : w.asNumber? = some n) :
      Alike R v w

/-- A property of all values, if a value has it as soon as its members do. -/
@[elab_as_elim]
theorem layerInduction {P : Value → Prop} (h : ∀ v, (∀ w ∈ v.members, P w) → P v) (v : Value) :
    P v := by
  induction v using memberInduction with
  | array items ih => exact h _ ih
  | object fields ih => exact h _ (List.forall_mem_map.2 ih)
  | _ => exact h _ nofun

theorem mem_members_of_getElem? {items : List Value} {i : Nat} {v : Value}
    (h : items[i]? = some v) : v ∈ (array items).members :=
  List.mem_of_getElem? h

theorem mem_members_of_find? {fields : List (String × Value)} {key : String} {v : Value}
    (h : Fields.find? key fields = some v) : v ∈ (object fields).members :=
  List.mem_map.2 ⟨(key, v), Fields.mem_of_find? h, rfl⟩

section
variable {u v w : Value} {R S T : Value → Value → Prop}

theorem Alike.imp (h : Alike R v w)
    (hRS : ∀ v' ∈ v.members, ∀ w' ∈ w.members, R v' w' → S v' w') : Alike S v w := by
  cases h with
  | null => exact .null
  | bool b => exact .bool b
  | number hv hw => exact .number hv hw
  | real h => exact .real h
  | text s => exact .text s
  | bytes bs => exact .bytes bs
  | array h =>
    refine .array (h.imp fun i v' w' hv' hw' => ?_)
    exact hRS v' (mem_members_of_getElem? hv') w' (mem_members_of_getElem? hw')
  | object h =>
    refine .object (h.imp fun k v' w' hv' hw' => ?_)
    exact hRS v' (mem_members_of_find? hv') w' (mem_members_of_find? hw')

theorem Alike.flip (h : Alike R v w) : Alike (fun w' v' => R v' w') w v := by
  cases h with
  | null => exact .null
  | bool b => exact .bool b
  | number hv hw => exact .number hw hv
  | real h => exact .real (Binary.equals_symm h)
  | text s => exact .text s
  | bytes bs => exact .bytes bs
  | array h => exact .array h.flip
  | object h => exact .object h.flip

theorem Alike.trans (huv : Alike R u v) (hvw : Alike S v w)
    (hRS : ∀ u' ∈ u.members, ∀ v' ∈ v.members, ∀ w' ∈ w.members, R u' v' → S v' w' → T u' w') :
    Alike T u w := by
  cases huv with
  | number hu hv =>
    cases hvw with
    | number hv' hw =>
      rw [hv] at hv'
      cases hv'
      exact .number hu hw
    | _ => cases hv
  | array huv =>
    cases hvw with
    | number hv => cases hv
    | array hvw =>
      refine .array (huv.trans hvw fun i u' v' w' hu' hv' hw' => ?_)
      exact hRS u' (mem_members_of_getElem? hu') v' (mem_members_of_getElem? hv') w'
        (mem_members_of_getElem? hw')
  | object huv =>
    cases hvw with
    | number hv => cases hv
    | object hvw =>
      refine .object (huv.trans hvw fun k u' v' w' hu' hv' hw' => ?_)
      exact hRS u' (mem_members_of_find? hu') v' (mem_members_of_find? hv') w'
        (mem_members_of_find? hw')
  | real huv =>
    cases hvw with
    | number hv => cases hv
    | real hvw => exact .real (Binary.equals_trans huv hvw)
  | null | bool | text | bytes =>
    cases hvw with
    | number hv => cases hv
    | _ => constructor

end

/-! ## Equality is likeness -/

/-- **Objects are equal if they have the same keys with equal values.** -/
theorem equals_object_iff {f g : List (String × Value)} (hf : (Fields.keys f).Nodup)
    (hg : (Fields.keys g).Nodup) : (object f).equals (object g) = true ↔
      Corresponds (fun v w => v.equals w = true) (Fields.find? · f) (Fields.find? · g) := by
  rw [equals, Bool.and_eq_true, beq_iff_eq, equalFields_iff]
  constructor
  · rintro ⟨hlen, hfields⟩
    have hsub : ∀ key ∈ Fields.keys f, key ∈ Fields.keys g := by
      intro key hkey
      obtain ⟨⟨_, v⟩, hmem, rfl⟩ := List.mem_map.1 hkey
      obtain ⟨w, hfind, -⟩ := hfields _ v hmem
      exact List.mem_map.2 ⟨_, Fields.mem_of_find? hfind, rfl⟩
    refine ⟨fun key => ?_, fun key v w hv hw => ?_⟩
    -- As many fields on both sides leave no key of `g` over, although none was looked up in `f`.
    · rw [Fields.find?_eq_none_iff, Fields.find?_eq_none_iff,
        Fields.mem_keys_iff_of_subset hf hlen hsub]
    · obtain ⟨w', hw', hvw⟩ := hfields key v (Fields.mem_of_find? hv)
      rw [hw] at hw'
      cases hw'
      exact hvw
  · intro h
    refine ⟨?_, fun key v hmem => h.exists_right (Fields.find?_of_mem hf hmem)⟩
    have hlen := (Fields.perm_keys hf hg h).length_eq
    rwa [Fields.length_keys, Fields.length_keys] at hlen

section
variable {v w : Value}

/-- What equals a number is the number, of either integer kind. -/
theorem equals_iff_of_asNumber? {n : Int} (hv : v.asNumber? = some n) :
    v.equals w = true ↔ w.asNumber? = some n := by
  cases v with
  | int a =>
    cases hv
    cases w with
    | int b =>
      simp only [equals, asNumber?, beq_iff_eq, Option.some.injEq, Int64.toInt_inj]
      exact eq_comm
    | uint b =>
      simp only [equals, asNumber?, beq_iff_eq, Option.some.injEq]
      exact eq_comm
    | _ => exact iff_of_false nofun nofun
  | uint a =>
    cases hv
    cases w with
    | int b => simp only [equals, asNumber?, beq_iff_eq, Option.some.injEq]
    | uint b =>
      simp only [equals, asNumber?, beq_iff_eq, Option.some.injEq, Int.ofNat_inj, UInt64.toNat_inj]
      exact eq_comm
    | _ => exact iff_of_false nofun nofun
  | _ => cases hv

/-- **Equality is likeness with equal members.** -/
theorem equals_iff_alike (hv : v.DistinctKeys) (hw : w.DistinctKeys) :
    v.equals w = true ↔ Alike (fun v' w' => v'.equals w' = true) v w := by
  constructor
  · intro h
    cases v with
    | int a => exact .number rfl ((equals_iff_of_asNumber? rfl).1 h)
    | uint a => exact .number rfl ((equals_iff_of_asNumber? rfl).1 h)
    | null =>
      cases w with
      | null => exact .null
      | _ => cases h
    | bool a =>
      cases w with
      | bool b =>
        obtain rfl : a = b := by simpa [equals] using h
        exact .bool a
      | _ => cases h
    | real x =>
      cases w with
      | real y => exact .real (by simpa [equals] using h)
      | _ => cases h
    | text s =>
      cases w with
      | text t =>
        obtain rfl : s = t := by simpa [equals] using h
        exact .text s
      | _ => cases h
    | bytes bs =>
      cases w with
      | bytes cs =>
        obtain rfl : bs = cs := by simpa [equals] using h
        exact .bytes bs
      | _ => cases h
    | array vs =>
      cases w with
      | array ws => exact .array (corresponds_getElem?_iff.2 (equalItems_iff.1 h))
      | _ => cases h
    | object f =>
      cases w with
      | object g => exact .object ((equals_object_iff hv.1 hw.1).1 h)
      | _ => cases h
  · intro h
    cases h with
    | null => rfl
    | bool b => simp [equals]
    | real h => simpa [equals] using h
    | text s => simp [equals]
    | bytes bs => simp [equals]
    | array h => exact equalItems_iff.2 (corresponds_getElem?_iff.1 h)
    | object h => exact (equals_object_iff hv.1 hw.1).2 h
    | number hv hw => exact (equals_iff_of_asNumber? hv).2 hw

end

/-! ## Laws of equality -/

/-- No object has a key twice, layer by layer. -/
theorem distinctKeys_iff {v : Value} : v.DistinctKeys ↔
    (∀ f, v = object f → (Fields.keys f).Nodup) ∧ ∀ w ∈ v.members, w.DistinctKeys := by
  cases v with
  | array items => simp [DistinctKeys, members, itemsDistinct_iff]
  | object fields =>
    simp only [DistinctKeys, members, fieldsDistinct_iff, List.forall_mem_map, object.injEq,
      forall_eq']
  | _ => simp [DistinctKeys, members]

theorem DistinctKeys.of_mem {v w : Value} (hv : v.DistinctKeys) (hw : w ∈ v.members) :
    w.DistinctKeys :=
  (distinctKeys_iff.1 hv).2 w hw

theorem hasNaN_eq_false_iff {v : Value} : v.hasNaN = false ↔
    (∀ x, v = real x → x.isNaN = false) ∧ ∀ w ∈ v.members, w.hasNaN = false := by
  cases v with
  | array items =>
    induction items with
    | nil => simp [hasNaN, itemsHaveNaN, members]
    | cons w ws ih => simpa [hasNaN, itemsHaveNaN, members] using fun _ => ih
  | object fields =>
    simp only [hasNaN, members, fieldsHaveNaN_eq_false_iff, List.forall_mem_map, reduceCtorEq,
      false_imp_iff, implies_true, true_and]
  | _ => simp [hasNaN, members]

section
variable {u v w : Value}

theorem equals_symm (hv : v.DistinctKeys) (hw : w.DistinctKeys) (h : v.equals w = true) :
    w.equals v = true := by
  -- The other value varies along: its members are those that the members of `v` are compared with.
  induction v using layerInduction generalizing w with
  | h v ih =>
    rw [equals_iff_alike hw hv]
    refine ((equals_iff_alike hv hw).1 h).flip.imp fun w' hw' v' hv' h' => ?_
    exact ih v' hv' (hv.of_mem hv') (hw.of_mem hw') h'

theorem equals_trans (hu : u.DistinctKeys) (hv : v.DistinctKeys) (hw : w.DistinctKeys)
    (huv : u.equals v = true) (hvw : v.equals w = true) : u.equals w = true := by
  induction u using layerInduction generalizing v w with
  | h u ih =>
    rw [equals_iff_alike hu hw]
    refine ((equals_iff_alike hu hv).1 huv).trans ((equals_iff_alike hv hw).1 hvw) ?_
    intro u' hu' v' hv' w' hw' huv' hvw'
    exact ih u' hu' (hu.of_mem hu') (hv.of_mem hv') (hw.of_mem hw') huv' hvw'

/-- A value is like itself if it is no real that is not a number, and if its members are related to
themselves. -/
theorem alike_self_iff {R : Value → Value → Prop} (hv : v.DistinctKeys) : Alike R v v ↔
    (∀ x, v = real x → x.isNaN = false) ∧ ∀ w ∈ v.members, R w w := by
  cases v with
  | null => exact iff_of_true .null ⟨nofun, nofun⟩
  | bool b => exact iff_of_true (.bool b) ⟨nofun, nofun⟩
  | int n => exact iff_of_true (.number rfl rfl) ⟨nofun, nofun⟩
  | uint n => exact iff_of_true (.number rfl rfl) ⟨nofun, nofun⟩
  | text s => exact iff_of_true (.text s) ⟨nofun, nofun⟩
  | bytes bs => exact iff_of_true (.bytes bs) ⟨nofun, nofun⟩
  | real x =>
    constructor
    · rintro (_ | _ | hx | _ | _ | _ | _ | hx)
      · refine ⟨?_, nofun⟩
        rintro _ ⟨⟩
        exact Binary.equals_self_iff.1 hx
      · cases hx
    · rintro ⟨hx, -⟩
      exact .real (Binary.equals_self_iff.2 (hx x rfl))
  | array vs =>
    constructor
    · rintro (_ | _ | _ | _ | _ | h | _ | h)
      · refine ⟨nofun, fun w hw => ?_⟩
        obtain ⟨i, hi⟩ := List.mem_iff_getElem?.1 hw
        exact corresponds_self_iff.1 h i w hi
      · cases h
    · rintro ⟨-, h⟩
      exact .array (corresponds_self_iff.2 fun i w hw => h w (mem_members_of_getElem? hw))
  | object f =>
    constructor
    · rintro (_ | _ | _ | _ | _ | _ | h | h)
      · refine ⟨nofun, fun w hw => ?_⟩
        obtain ⟨⟨key, w⟩, hmem, rfl⟩ := List.mem_map.1 hw
        exact corresponds_self_iff.1 h key w (Fields.find?_of_mem hv.1 hmem)
      · cases h
    · rintro ⟨-, h⟩
      exact .object (corresponds_self_iff.2 fun key w hw => h w (mem_members_of_find? hw))

theorem equals_self_iff (hv : v.DistinctKeys) : v.equals v = true ↔ v.hasNaN = false := by
  induction v using layerInduction with
  | h v ih =>
    rw [equals_iff_alike hv hv, alike_self_iff hv, hasNaN_eq_false_iff]
    exact and_congr_right' (forall₂_congr fun w hw => ih w hw (hv.of_mem hw))

/-! ## Normal forms -/

/-- Normal forms change the kind of an integer only, and keep the number. -/
theorem asNumber?_normal (v : Value) : v.normal.asNumber? = v.asNumber? := by
  cases v with
  | uint n =>
    unfold normal ofUInt
    split
    · rename_i h
      simp only [asNumber?, toInt_toInt64_of_lt h]
    · rfl
  | _ => rfl

/-- What a number equals is the number, of either integer kind. -/
theorem equals_iff_of_asNumber?_right {n : Int} (hw : w.asNumber? = some n) :
    v.equals w = true ↔ v.asNumber? = some n := by
  cases hv : v.asNumber? with
  | some m =>
    rw [equals_iff_of_asNumber? hv, hw]
    exact eq_comm
  | none =>
    refine iff_of_false (fun h => ?_) nofun
    cases w with
    | int b | uint b =>
      cases v with
      | int a | uint a => cases hv
      | _ => cases h
    | _ => cases hw

theorem equals_normal_of_asNumber? {n : Int} (h : v.asNumber? = some n ∨ w.asNumber? = some n) :
    v.normal.equals w.normal = v.equals w := by
  rw [Bool.eq_iff_iff]
  rcases h with h | h
  · rw [equals_iff_of_asNumber? h, equals_iff_of_asNumber? ((asNumber?_normal v).trans h),
      asNumber?_normal]
  · rw [equals_iff_of_asNumber?_right h,
      equals_iff_of_asNumber?_right ((asNumber?_normal w).trans h), asNumber?_normal]

theorem equalItems_normalItems {vs ws : List Value}
    (h : ∀ v ∈ vs, ∀ w, v.normal.equals w.normal = v.equals w) :
    equalItems (normalItems vs) (normalItems ws) = equalItems vs ws := by
  induction vs generalizing ws with
  | nil => cases ws <;> rfl
  | cons v vs ih =>
    obtain ⟨hv, hvs⟩ := List.forall_mem_cons.1 h
    cases ws with
    | nil => rfl
    | cons w ws => rw [normalItems, normalItems, equalItems, equalItems, hv, ih hvs]

theorem find?_normalFields (key : String) (fields : List (String × Value)) :
    Fields.find? key (normalFields fields) = (Fields.find? key fields).map normal := by
  induction fields with
  | nil => rfl
  | cons field rest ih =>
    obtain ⟨k, v⟩ := field
    rw [normalFields, Fields.find?, Fields.find?, ih]
    split <;> rfl

theorem equalFields_normalFields {f g : List (String × Value)}
    (h : ∀ field ∈ f, ∀ w, field.2.normal.equals w.normal = field.2.equals w) :
    equalFields (normalFields f) (normalFields g) = equalFields f g := by
  induction f with
  | nil => rfl
  | cons field rest ih =>
    obtain ⟨k, v⟩ := field
    obtain ⟨hv, hrest⟩ := List.forall_mem_cons.1 h
    rw [normalFields, equalFields, equalFields, find?_normalFields, ih hrest]
    cases Fields.find? k g with
    | none => rfl
    | some w => exact congrArg (· && _) (hv w)

/-- **Equality sees the number of an integer, not its kind**, at any depth. -/
theorem equals_normal (v w : Value) : v.normal.equals w.normal = v.equals w := by
  induction v using memberInduction generalizing w with
  | int n => exact equals_normal_of_asNumber? (.inl rfl)
  | uint n => exact equals_normal_of_asNumber? (.inl rfl)
  | array vs ih =>
    cases w with
    | array ws => exact equalItems_normalItems ih
    | uint n => exact equals_normal_of_asNumber? (.inr rfl)
    | _ => rfl
  | object f ih =>
    cases w with
    | object g =>
      simp only [normal, equals, length_normalFields, equalFields_normalFields ih]
    | uint n => exact equals_normal_of_asNumber? (.inr rfl)
    | _ => rfl
  | _ =>
    cases w with
    | uint n => exact equals_normal_of_asNumber? (.inr rfl)
    | _ => rfl

end

/-- A normal form is its own normal form. -/
theorem normal_normal (v : Value) : v.normal.normal = v.normal := by
  induction v using memberInduction with
  | uint n => exact normal_ofUInt n
  | array items ih =>
    rw [normal, normal, normalItems_eq_map, normalItems_eq_map, List.map_map]
    exact congrArg array (List.map_congr_left ih)
  | object fields ih =>
    rw [normal, normal, normalFields_eq_map, normalFields_eq_map, List.map_map]
    refine congrArg object (List.map_congr_left fun field hmem => ?_)
    exact congrArg (Prod.mk field.1) (ih field hmem)
  | _ => rfl

theorem normal_equals (v w : Value) : v.normal.equals w = v.equals w := by
  rw [← equals_normal, normal_normal, equals_normal]

/-! ## What equality tells apart -/

/-- The order of fields does not matter to equality. -/
theorem equals_object_perm {f f' g g' : List (String × Value)} (hf : (Fields.keys f).Nodup)
    (hg : (Fields.keys g).Nodup) (hff : f.Perm f') (hgg : g.Perm g') :
    (object f').equals (object g') = (object f).equals (object g) := by
  have hf' : (Fields.keys f').Nodup := (hff.map Prod.fst).nodup_iff.1 hf
  have hg' : (Fields.keys g').Nodup := (hgg.map Prod.fst).nodup_iff.1 hg
  rw [Bool.eq_iff_iff, equals_object_iff hf' hg', equals_object_iff hf hg,
    funext (Fields.find?_perm hf hff), funext (Fields.find?_perm hg hgg)]

/-- Keys and values of fields that correspond, said with membership. -/
theorem corresponds_find?_iff {R : Value → Value → Prop} {f g : List (String × Value)}
    (hf : (Fields.keys f).Nodup) (hg : (Fields.keys g).Nodup) :
    Corresponds R (Fields.find? · f) (Fields.find? · g) ↔
      (∀ key, key ∈ Fields.keys f ↔ key ∈ Fields.keys g) ∧
        ∀ key v w, (key, v) ∈ f → (key, w) ∈ g → R v w := by
  constructor
  · intro h
    refine ⟨Fields.mem_keys_iff h, fun key v w hv hw => ?_⟩
    exact h.related key v w (Fields.find?_of_mem hf hv) (Fields.find?_of_mem hg hw)
  · rintro ⟨hkeys, h⟩
    refine ⟨fun key => ?_, fun key v w hv hw => ?_⟩
    · rw [Fields.find?_eq_none_iff, Fields.find?_eq_none_iff, hkeys]
    · exact h key v w (Fields.mem_of_find? hv) (Fields.mem_of_find? hw)

/-- **Equality is an equivalence of the values in which all reals are numbers**, and a value with
another real in it does not even equal itself.

Objects are equal if they have the same keys with equal values, whatever the order of their fields.
Arrays are equal if they are equally long and equal in every place; so two elements can be exchanged
only if they are equal. Integers are equal if they are the same number, and equality does not see
which kind holds a number at any depth.

Objects are maps, so the keys of every object in the values are distinct. -/
theorem equals_partial_equivalence (a b c : Value) (ha : a.DistinctKeys) (hb : b.DistinctKeys)
    (hc : c.DistinctKeys) :
    (a.equals b = true → b.equals a = true) ∧
    (a.equals b = true → b.equals c = true → a.equals c = true) ∧
    (a.equals a = true ↔ a.hasNaN = false) ∧
    (∀ f g, (object f).DistinctKeys → (object g).DistinctKeys →
      ((object f).equals (object g) = true ↔
        (∀ key, key ∈ Fields.keys f ↔ key ∈ Fields.keys g) ∧
          ∀ key v w, (key, v) ∈ f → (key, w) ∈ g → v.equals w = true) ∧
      ∀ f' g', f.Perm f' → g.Perm g' →
        (object f').equals (object g') = (object f).equals (object g)) ∧
    (∀ vs ws, (array vs).equals (array ws) = true ↔
      List.Forall₂ (fun v w => v.equals w = true) vs ws) ∧
    ((array [a, b]).equals (array [b, a]) = true ↔ a.equals b = true) ∧
    (∀ n, a.asNumber? = some n → (a.equals b = true ↔ b.asNumber? = some n)) ∧
    a.normal.equals b.normal = a.equals b := by
  refine ⟨equals_symm ha hb, equals_trans ha hb hc, equals_self_iff ha, fun f g hf hg => ⟨?_, ?_⟩,
    fun _ _ => equalItems_iff, ?_, fun _ => equals_iff_of_asNumber?, equals_normal a b⟩
  · rw [equals_object_iff hf.1 hg.1, corresponds_find?_iff hf.1 hg.1]
  · intro f' g' hff hgg
    exact equals_object_perm hf.1 hg.1 hff hgg
  · rw [equals, equalItems_iff, List.forall₂_cons, List.forall₂_cons]
    constructor
    · rintro ⟨h, -⟩
      exact h
    · intro h
      exact ⟨h, equals_symm ha hb h, .nil⟩

/-- Two objects that differ in the order of their fields, in the kind of an integer and in the sign
of a zero are equal, and so is each to itself. With a real that is not a number in it an array does
not equal itself. -/
theorem equals_partial_equivalence_zeros :
    let a : Value := .object [("n", .uint 3), ("z", .array [.real ⟨0x8000_0000_0000_0000⟩])]
    let b : Value := .object [("z", .array [.real ⟨0⟩]), ("n", .int 3)]
    let c : Value := .array [.real ⟨0x7ff8_0000_0000_0000⟩]
    (a.DistinctKeys ∧ b.DistinctKeys ∧ c.DistinctKeys) ∧ a.equals b = true ∧ b.equals a = true ∧
      a.equals a = true ∧ ¬ c.equals c = true := by
  intro a b c
  have ha : a.DistinctKeys := ⟨by decide, trivial, ⟨trivial, trivial⟩, trivial⟩
  have hb : b.DistinctKeys := ⟨by decide, ⟨trivial, trivial⟩, trivial, trivial⟩
  have hc : c.DistinctKeys := ⟨trivial, trivial⟩
  have hab : a.equals b = true := by decide
  obtain ⟨hsymm, -, hself, -⟩ := equals_partial_equivalence a b a ha hb ha
  obtain ⟨-, -, hnan, -⟩ := equals_partial_equivalence c c c hc hc hc
  refine ⟨⟨ha, hb, hc⟩, hab, hsymm hab, hself.2 (by decide), ?_⟩
  rw [hnan]
  decide

end Value

end WireTree
