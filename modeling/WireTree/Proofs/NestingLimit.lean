import WireTree.Proofs.Acceptance

/-!
# Trees that nest too deeply

A spelling of a tree that nests deeper than allowed is read up to the first container that is one
level too deep, and refused there.

* `Walk.FailsTooDeep refusal m s`: the action fails because of the nesting, at some place, for the
  reason given.

Results:
* **`Walk.value_tooDeep`**: that is how reading a value fails on every such spelling, whatever
  follows it.
* `decodeWith_tooDeep`: the same for whole buffers.
-/

namespace WireTree

open Cursor (facing)

variable {σ ν α β : Type}

namespace Walk

section
variable {b : Builder σ ν} {o : Options} {refusal : Refusal} {levels : Nat}

/-- The action fails because of the nesting, at some place. -/
def FailsTooDeep (refusal : Refusal) (m : Walk σ α) (s : State σ) : Prop :=
  ∃ offset after, m s = .error (refusal.error offset) after

theorem FailsTooDeep.bind {m : Walk σ α} {s : State σ} (h : FailsTooDeep refusal m s)
    (f : α → Walk σ β) : FailsTooDeep refusal (m >>= f) s := by
  obtain ⟨offset, after, h⟩ := h
  exact ⟨offset, after, bind_of_eq_error h f⟩

theorem FailsTooDeep.after {m : Walk σ α} {f : α → Walk σ β} {s s' : State σ} {x : α}
    (hm : m s = .ok x s') (h : FailsTooDeep refusal (f x) s') :
    FailsTooDeep refusal (m >>= f) s := by
  obtain ⟨offset, after, h⟩ := h
  exact ⟨offset, after, (bind_of_eq_ok hm f).trans h⟩

theorem FailsTooDeep.of_eq {m m' : Walk σ α} {s s' : State σ} (h : FailsTooDeep refusal m' s')
    (heq : m s = m' s') : FailsTooDeep refusal m s := by
  obtain ⟨offset, after, h⟩ := h
  exact ⟨offset, after, heq.trans h⟩

theorem reading_byte (pos : Nat) (c : UInt8) (rest : List UInt8) (s : σ) :
    reading Cursor.byte ⟨facing pos (c :: rest), s⟩ = .ok c ⟨facing (pos + 1) rest, s⟩ :=
  (accepts_reading Cursor.recognises_byte).eq_ok (r := (c, s)) ⟨rfl, rfl⟩ pos rest

/-- Without a level left, a container is refused at its tag. -/
theorem node_error_container {tag : Tag} (h : tag.isContainer = true) (pos : Nat)
    (rest : List UInt8) (s : σ) :
    node b o (.error refusal) ⟨facing pos (tag.toByte :: rest), s⟩ =
      .error (refusal.error pos) ⟨facing (pos + 1) rest, s⟩ := by
  show (reading Cursor.byte >>= _) _ = _
  rw [bind_of_eq_ok (reading_byte ..)]
  cases tag with
  | array => rfl
  | object => rfl
  | _ => cases h

theorem node_ok_array (inner : Walk σ ν) (pos : Nat) (rest : List UInt8) (s : σ) :
    node b o (.ok inner) ⟨facing pos (Tag.array.toByte :: rest), s⟩ =
      array b inner ⟨facing (pos + 1) rest, s⟩ := by
  show (reading Cursor.byte >>= _) _ = _
  rw [bind_of_eq_ok (reading_byte ..)]
  rfl

theorem node_ok_object (inner : Walk σ ν) (pos : Nat) (rest : List UInt8) (s : σ) :
    node b o (.ok inner) ⟨facing pos (Tag.object.toByte :: rest), s⟩ =
      object b inner ⟨facing (pos + 1) rest, s⟩ := by
  show (reading Cursor.byte >>= _) _ = _
  rw [bind_of_eq_ok (reading_byte ..)]
  rfl

/-- A container fails where its members do, if its count passes. -/
theorem counted_tooDeep {unit : Nat} {opening : Nat → σ → ν × σ} {member : ν → Walk σ ν}
    {n : UInt64} {head rest : List UInt8} {pos : Nat} {s : σ} (hn : Varint.Form n head)
    (hfit : n.toNat * unit ≤ rest.length)
    (h : FailsTooDeep refusal (times n.toNat member (opening n.toNat s).1)
      ⟨facing (pos + head.length) rest, (opening n.toNat s).2⟩) :
    FailsTooDeep refusal (counted unit opening member) ⟨facing pos (head ++ rest), s⟩ := by
  have hcount : count unit ⟨facing pos (head ++ rest), s⟩ =
      .ok n.toNat ⟨facing (pos + head.length) rest, s⟩ :=
    count_eq_ok_iff.2 ⟨n, head, rest, rfl, hn, rfl, hfit, rfl⟩
  have hopened : building (opening n.toNat) ⟨facing (pos + head.length) rest, s⟩ =
      .ok (opening n.toNat s).1 ⟨facing (pos + head.length) rest, (opening n.toNat s).2⟩ := rfl
  exact FailsTooDeep.after hcount (FailsTooDeep.after hopened h)

section
variable {inner : Walk σ ν} (hok : Accepts inner (Builds b o.unknownTags levels))
  (hdeep : ∀ t bs, Wire.Spells o.unknownTags t bs → levels < t.nesting → ∀ pos tail s,
    FailsTooDeep refusal inner ⟨facing pos (bs ++ tail), s⟩)
include hok hdeep

/-- Elements are read up to the first that nests too deeply. -/
theorem items_tooDeep {ts : List Wire} {bs : List UInt8}
    (h : Wire.SpellsItems o.unknownTags ts bs) (hnest : levels < Wire.itemsNesting ts) (pos : Nat)
    (tail : List UInt8) (node : ν) (s : σ) :
    FailsTooDeep refusal (times ts.length (element b inner) node)
      ⟨facing pos (bs ++ tail), s⟩ := by
  induction ts generalizing bs pos node s with
  | nil => cases hnest
  | cons t ts ih =>
    cases h with
    | @cons _ _ bs rest ht hts =>
      rw [List.append_assoc]
      by_cases hle : t.nesting ≤ levels
      · have hts' : levels < Wire.itemsNesting ts := by
          simp only [Wire.itemsNesting] at hnest
          omega
        exact FailsTooDeep.after
          ((accepts_element hok node).eq_ok ⟨t, ht, hle, rfl⟩ pos (rest ++ tail))
          (ih hts hts' _ _ _)
      · exact ((hdeep t bs ht (Nat.lt_of_not_le hle) _ _ _).bind _).bind _

/-- Pairs are read up to the first whose value nests too deeply. -/
theorem pairs_tooDeep {ts : List (String × Wire)} {bs : List UInt8}
    (h : Wire.SpellsPairs o.unknownTags ts bs) (hnest : levels < Wire.pairsNesting ts) (pos : Nat)
    (tail : List UInt8) (node : ν) (s : σ) :
    FailsTooDeep refusal (times ts.length (pair b inner) node)
      ⟨facing pos (bs ++ tail), s⟩ := by
  induction ts generalizing bs pos node s with
  | nil => cases hnest
  | cons pair ts ih =>
    cases h with
    | @cons k t _ key bs rest hk ht hts =>
      by_cases hle : t.nesting ≤ levels
      · have hts' : levels < Wire.pairsNesting ts := by
          simp only [Wire.pairsNesting] at hnest
          omega
        rw [List.append_assoc]
        exact FailsTooDeep.after
          ((accepts_pair hok node).eq_ok ⟨k, t, key, bs, rfl, hk, ht, hle, rfl⟩ pos (rest ++ tail))
          (ih hts hts' _ _ _)
      · rw [List.append_assoc, List.append_assoc]
        have hkey := accepts_text.eq_ok (r := (k, s)) ⟨rfl, hk⟩ pos (bs ++ (rest ++ tail))
        exact (FailsTooDeep.after hkey
          ((hdeep t bs ht (Nat.lt_of_not_le hle) _ _ _).bind _)).bind _

end

/-- **On a spelling of a tree that nests deeper than allowed, reading fails for that reason.** -/
theorem value_tooDeep {t : Wire} {bs : List UInt8} (h : Wire.Spells o.unknownTags t bs)
    (hnest : levels < t.nesting) (pos : Nat) (tail : List UInt8) (s : σ) :
    FailsTooDeep refusal (value b o refusal levels) ⟨facing pos (bs ++ tail), s⟩ := by
  -- With no level left the container itself is refused, and else one of its members.
  induction levels generalizing t bs pos tail s with
  | zero =>
    cases h with
    | unknown => cases hnest
    | tagged h =>
      cases h with
      | array => exact ⟨pos, _, node_error_container rfl pos _ s⟩
      | object => exact ⟨pos, _, node_error_container rfl pos _ s⟩
      | _ => cases hnest
  | succ levels ih =>
    have hok := accepts_value b o refusal levels
    cases h with
    | unknown => cases hnest
    | tagged h =>
      cases h with
      | @array n ts head body hn hlen hts =>
        have hfit : n.toNat * 1 ≤ (body ++ tail).length := by
          have := Wire.length_le_of_spellsItems hts
          rw [List.length_append]
          omega
        have hitems := items_tooDeep hok (fun _ _ => ih) hts (Nat.lt_of_succ_lt_succ hnest)
        rw [← hlen] at hitems
        rw [List.cons_append, List.append_assoc]
        exact (counted_tooDeep hn hfit (hitems ..)).of_eq (node_ok_array ..)
      | @object n ts head body hn hlen hts =>
        have hfit : n.toNat * 2 ≤ (body ++ tail).length := by
          have := Wire.two_mul_length_le_of_spellsPairs hts
          rw [List.length_append]
          omega
        have hpairs := pairs_tooDeep hok (fun _ _ => ih) hts (Nat.lt_of_succ_lt_succ hnest)
        rw [← hlen] at hpairs
        rw [List.cons_append, List.append_assoc]
        exact (counted_tooDeep hn hfit (hpairs ..)).of_eq (node_ok_object ..)
      | _ => cases hnest

end

end Walk

/-- A buffer with a value that nests deeper than allowed is refused for that reason. -/
theorem decodeWith_tooDeep (b : Builder σ ν) {o : Options} {bytes p tail : List UInt8} {t : Wire}
    (hfits : HeaderFits bytes) (hregion : declaredRegion bytes = p ++ tail)
    (hs : Wire.Spells o.unknownTags t p) (hnest : o.maxDepth.toNat < t.nesting) (s : σ) :
    ∃ offset, (decodeWith b o bytes s).1 = .error (.tooDeep o.maxDepth offset) := by
  have hlt := nesting_lt_of_spells hfits hregion hs
  have hlimit : o.maxDepth ≠ 0xffff_ffff_ffff_ffff := Options.toNat_lt_largest_iff.1 (by omega)
  obtain ⟨offset, after, hvalue⟩ : Walk.FailsTooDeep (o.refusal 0)
      (Walk.value b o (o.refusal 0) (o.levels 0)) ⟨facing headerSize (p ++ tail), s⟩ :=
    Walk.value_tooDeep hs hnest headerSize tail s
  rw [Options.refusal_zero hlimit] at hvalue
  refine ⟨offset, ?_⟩
  simp only [decodeWith, headerParse_eq_ok_iff.2 ⟨hfits, rfl⟩, region_eq_facing hfits, hregion,
    root_eq, Walk.valueAt, Options.refusal_zero hlimit, hvalue, Refusal.error]

end WireTree
