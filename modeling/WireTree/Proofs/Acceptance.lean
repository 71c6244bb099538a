import WireTree.Decode
import WireTree.Proofs.WalkGrammar

/-!
# What decoding accepts

Whole buffers against the grammar: a header that fits the buffer, and a value at the front of the
declared region.

* `declaredRegion bytes` are the bytes behind the header, up to the declared size.
* `ValueAt o bytes t p tail`: the header fits, and the region is a spelling `p` of the tree `t` and
  a `tail`, with no container deeper than the options allow.

Results:
* **`decodeWith_eq_ok_iff`**: with any builder, decoding succeeds exactly on such buffers (of which
  nothing is left over where sizes have to be exact), and gives what the builder makes of the tree.
* **`prefix_unique`**: what follows a value changes neither where it ends nor what is made of it.
-/

namespace WireTree

open Cursor (facing)
open Walk (Accepts accepts_value accepts_valueAt Builds)

variable {σ ν : Type}

/-! ## The declared region -/

/-- The bytes behind the header, up to the declared size. -/
def declaredRegion (bytes : List UInt8) : List UInt8 :=
  (bytes.take (declaredSize bytes).toNat).drop headerSize

/-- The first bytes of a buffer declare what the buffer declares, if the header is among them. -/
theorem declaredSize_take {bytes : List UInt8} {n : Nat} (h : headerSize ≤ n) :
    declaredSize (bytes.take n) = declaredSize bytes := by
  obtain ⟨n, rfl⟩ := Nat.exists_eq_add_of_le' h
  match bytes with
  | [] => rfl
  | [_] => rfl
  | [_, _] => rfl
  | [_, _, _] => rfl
  | _ :: _ :: _ :: _ :: _ => rfl

/-- The buffer holds a header and a tag, and so does the declared size, which stays inside. -/
def HeaderFits (bytes : List UInt8) : Prop :=
  minBufferSize ≤ (declaredSize bytes).toNat ∧ (declaredSize bytes).toNat ≤ bytes.length

theorem HeaderFits.length_region {bytes : List UInt8} (h : HeaderFits bytes) :
    headerSize + (declaredRegion bytes).length = (declaredSize bytes).toNat := by
  obtain ⟨h₁, h₂⟩ := h
  simp only [minBufferSize] at h₁
  simp only [declaredRegion, headerSize, List.length_drop, List.length_take]
  omega

/-- A header is accepted exactly if it fits. -/
theorem headerParse_eq_ok_iff {bytes : List UInt8} {h : Header} :
    Header.parse bytes = .ok h ↔ HeaderFits bytes ∧ h = ⟨declaredSize bytes⟩ := by
  simp only [Header.parse, HeaderFits]
  constructor
  · intro hp
    split at hp
    · cases hp
    split at hp
    · cases hp
    split at hp
    · cases hp
    · cases hp
      exact ⟨⟨by omega, by omega⟩, rfl⟩
  · rintro ⟨⟨h₁, h₂⟩, rfl⟩
    rw [if_neg (by omega), if_neg (by omega), if_neg (by omega)]

/-- A header is refused for its sizes only. -/
theorem eq_of_headerParse_eq_error {bytes : List UInt8} {e : DecodeError}
    (h : Header.parse bytes = .error e) :
    e = .bufferTooSmall bytes.length ∨ e = .declaredSizeTooSmall (declaredSize bytes) ∨
      e = .declaredSizeExceedsBuffer (declaredSize bytes) bytes.length := by
  simp only [Header.parse] at h
  split at h
  · cases h
    exact .inl rfl
  split at h
  · cases h
    exact .inr (.inl rfl)
  split at h
  · cases h
    exact .inr (.inr rfl)
  · cases h

/-- The walk starts before the declared region. -/
theorem region_eq_facing {bytes : List UInt8} (h : HeaderFits bytes) :
    Header.region ⟨declaredSize bytes⟩ bytes = facing headerSize (declaredRegion bytes) := by
  have hlen := h.length_region
  obtain ⟨h₁, h₂⟩ := h
  simp only [facing, hlen]
  simp only [Header.region, Header.stop, Cursor.window, declaredRegion, Cursor.mk.injEq, true_and]
  rw [Nat.min_eq_left h₂, List.drop_take]
  exact ⟨rfl, rfl⟩

/-! ## The nesting limit -/

theorem nesting_lt_of_spells {bytes p tail : List UInt8} {policy : UnknownTags} {t : Wire}
    (h : HeaderFits bytes) (hregion : declaredRegion bytes = p ++ tail)
    (hs : Wire.Spells policy t p) : t.nesting < 0x1_0000_0000_0000_0000 := by
  have hlen := h.length_region
  have hlt := (declaredSize bytes).toNat_lt
  have := Wire.nesting_lt_length hs
  rw [hregion, List.length_append] at hlen
  omega

/-! ## Root values -/

/-- A root value is a value, compared with the bytes left where sizes have to be exact. -/
theorem root_eq (b : Builder σ ν) (o : Options) (h : Header) (s : Walk.State σ) :
    Walk.root b o h s =
      match Walk.valueAt b o 0 s with
      | .ok node after =>
        if o.exactSize && after.cursor.remaining != 0 then
          .error (.trailingBytes after.cursor.remaining h.declared) after
        else .ok node after
      | .error e after => .error e after := by
  show EStateM.bind (Walk.valueAt b o 0) _ _ = _
  simp only [EStateM.bind]
  cases Walk.valueAt b o 0 s with
  | error e after => rfl
  | ok node after =>
    show (if (o.exactSize && after.cursor.remaining != 0) = true
      then (throw (.trailingBytes after.cursor.remaining h.declared) : Walk σ ν)
      else return node) after = _
    by_cases hexact : (o.exactSize && after.cursor.remaining != 0) = true
    · simp only [if_pos hexact]
      rfl
    · simp only [if_neg hexact]
      rfl

/-- Behind its header, a buffer is decoded by reading a value. -/
theorem decodeWith_of_parse {bytes : List UInt8} {h : Header} (hparse : Header.parse bytes = .ok h)
    (b : Builder σ ν) (o : Options) (s : σ) :
    decodeWith b o bytes s =
      match Walk.valueAt b o 0 ⟨h.region bytes, s⟩ with
      | .ok node after =>
        (if o.exactSize && after.cursor.remaining != 0 then
          .error (.trailingBytes after.cursor.remaining h.declared)
        else .ok node, after.built)
      | .error e after => (.error e, after.built) := by
  simp only [decodeWith, hparse, root_eq]
  cases Walk.valueAt b o 0 ⟨h.region bytes, s⟩ with
  | error e after => rfl
  | ok node after =>
    simp only
    cases o.exactSize && after.cursor.remaining != 0 <;> rfl

theorem root_eq_ok_iff {b : Builder σ ν} {o : Options} {h : Header} {pos : Nat}
    {ahead : List UInt8} {s : σ} {node : ν} {after : Walk.State σ} :
    Walk.root b o h ⟨facing pos ahead, s⟩ = .ok node after ↔
      ∃ p tail, ahead = p ++ tail ∧ after.cursor = facing (pos + p.length) tail ∧
        Builds b o.unknownTags (o.levels 0) p s (node, after.built) ∧
        (o.exactSize = true → tail = []) := by
  have hfull : ∀ tail : List UInt8,
      (o.exactSize && tail.length != 0) = false ↔ (o.exactSize = true → tail = []) := by
    intro tail
    cases o.exactSize <;> simp
  have hvalue := accepts_valueAt b o 0 pos ahead s
  rw [root_eq]
  constructor
  · intro hroot
    split at hroot
    · rename_i node' after' hok
      obtain ⟨p, tail, rfl, hc, hb⟩ := (hvalue ..).1 hok
      split at hroot
      · cases hroot
      · rename_i hexact
        cases hroot
        rw [hc, Cursor.remaining_facing, Bool.not_eq_true] at hexact
        exact ⟨p, tail, rfl, hc, hb, (hfull tail).1 hexact⟩
    · cases hroot
  · rintro ⟨p, tail, rfl, hc, hb, hexact⟩
    rw [(hvalue ..).2 ⟨p, tail, rfl, hc, hb⟩]
    simp only [hc, Cursor.remaining_facing, (hfull tail).2 hexact]
    rfl

/-! ## Whole buffers -/

/-- The header fits, and behind it stand a spelling of a tree that is allowed to nest as it does and
a tail. -/
structure ValueAt (o : Options) (bytes : List UInt8) (t : Wire) (p tail : List UInt8) : Prop where
  header : HeaderFits bytes
  region : declaredRegion bytes = p ++ tail
  spells : Wire.Spells o.unknownTags t p
  nesting : t.nesting ≤ o.maxDepth.toNat

/-- The root value of such a buffer is its tree, and the walk ends where the tail begins. -/
theorem root_of_valueAt {o : Options} {bytes p tail : List UInt8} {t : Wire}
    (h : ValueAt o bytes t p tail) (hexact : o.exactSize = true → tail = []) (b : Builder σ ν)
    (s : σ) :
    Walk.root b o ⟨declaredSize bytes⟩ ⟨Header.region ⟨declaredSize bytes⟩ bytes, s⟩ =
      .ok (t.build b s).1 ⟨facing (headerSize + p.length) tail, (t.build b s).2⟩ := by
  rw [region_eq_facing h.header]
  exact root_eq_ok_iff.2 ⟨p, tail, h.region, rfl, ⟨t, h.spells, h.nesting, rfl⟩, hexact⟩

/-- **With any builder, decoding succeeds exactly on a value that fills the region as far as it has
to, and gives what the builder makes of its tree.** -/
theorem decodeWith_eq_ok_iff {b : Builder σ ν} {o : Options} {bytes : List UInt8} {s s' : σ}
    {node : ν} :
    decodeWith b o bytes s = (.ok node, s') ↔
      ∃ t p tail, ValueAt o bytes t p tail ∧ (o.exactSize = true → tail = []) ∧
        (node, s') = t.build b s := by
  constructor
  · intro hd
    simp only [decodeWith] at hd
    split at hd
    · cases hd
    · rename_i h hparse
      obtain ⟨hfits, rfl⟩ := headerParse_eq_ok_iff.1 hparse
      rw [region_eq_facing hfits] at hd
      split at hd
      · rename_i node' after hroot
        cases hd
        obtain ⟨p, tail, hregion, -, ⟨t, hs, hnest, hb⟩, hexact⟩ := root_eq_ok_iff.1 hroot
        exact ⟨t, p, tail, ⟨hfits, hregion, hs, hnest⟩, hexact, hb⟩
      · cases hd
  · rintro ⟨t, p, tail, h, hexact, hb⟩
    simp only [decodeWith, headerParse_eq_ok_iff.2 ⟨h.header, rfl⟩, root_of_valueAt h hexact, ← hb]

/-- **What follows a value changes neither where it ends nor what is made of it.** -/
theorem prefix_unique {policy : UnknownTags} {t₁ t₂ : Wire} {p₁ p₂ tail₁ tail₂ : List UInt8}
    (h₁ : Wire.Spells policy t₁ p₁) (h₂ : Wire.Spells policy t₂ p₂)
    (heq : p₁ ++ tail₁ = p₂ ++ tail₂) (b : Builder σ ν) (s : σ) :
    p₁ = p₂ ∧ t₁.build b s = t₂.build b s := by
  have hwalk := accepts_value b { unknownTags := policy } .overflow (max t₁.nesting t₂.nesting)
  have r₁ := hwalk.eq_ok ⟨t₁, h₁, Nat.le_max_left .., rfl⟩ 0 tail₁ (s := s)
  have r₂ := hwalk.eq_ok ⟨t₂, h₂, Nat.le_max_right .., rfl⟩ 0 tail₂ (s := s)
  rw [heq, r₂] at r₁
  injection r₁ with hnode hstate
  injection hstate with hcursor hbuilt
  have hpos : 0 + p₂.length = 0 + p₁.length := congrArg Cursor.pos hcursor
  exact ⟨(List.append_inj heq (by omega)).1, (Prod.ext hnode hbuilt).symm⟩

end WireTree
