import WireTree.Proofs.Grammar
import WireTree.Walk

/-!
# What actions of a walk accept

The pieces that a walk takes from the bytes ahead of it, said without positions.

* `Walk.Accepts m G`: from any place where a walk may be, `m` succeeds exactly if some bytes ahead
  are related by `G` to the builder before and to what `m` answers, and it stops behind these bytes.
* `Accepts.bind` composes such actions; a place that is only used for errors does not matter
  (`accepts_position_bind`).

A count is compared with all bytes ahead before its items are read. That refuses nothing as long as
every item takes its least number of bytes (`accepts_count_bind`).

Results:
* `accepts_building`, `accepts_reading`, `accepts_throw`, `accepts_text`: what each action accepts.
* `count_eq`: reading a count in one equation, errors included.
-/

namespace WireTree

open Cursor (facing Recognises)

variable {σ α β : Type}

namespace Walk

/-! ## Actions and what they accept -/

/-- From every place, `m` succeeds exactly on bytes that `G` relates to its answer. -/
def Accepts (m : Walk σ α) (G : List UInt8 → σ → α × σ → Prop) : Prop :=
  ∀ (pos : Nat) (ahead : List UInt8) (s : σ) (x : α) (after : State σ),
    m ⟨facing pos ahead, s⟩ = .ok x after ↔
      ∃ bs tail, ahead = bs ++ tail ∧ after.cursor = facing (pos + bs.length) tail ∧
        G bs s (x, after.built)

namespace Accepts

variable {m : Walk σ α} {G : List UInt8 → σ → α × σ → Prop}

/-- Bytes in the relation are accepted, whatever follows them. -/
theorem eq_ok (h : Accepts m G) {bs : List UInt8} {s : σ} {r : α × σ} (hG : G bs s r) (pos : Nat)
    (tail : List UInt8) :
    m ⟨facing pos (bs ++ tail), s⟩ = .ok r.1 ⟨facing (pos + bs.length) tail, r.2⟩ :=
  (h ..).2 ⟨bs, tail, rfl, rfl, hG⟩

theorem congr {G' : List UInt8 → σ → α × σ → Prop} (h : Accepts m G)
    (hG : ∀ bs s r, G bs s r ↔ G' bs s r) : Accepts m G' := by
  intro pos ahead s x after
  rw [h pos ahead s x after]
  simp only [hG]

theorem bind {f : α → Walk σ β} {H : α → List UInt8 → σ → β × σ → Prop} (hm : Accepts m G)
    (hf : ∀ x, Accepts (f x) (H x)) :
    Accepts (m >>= f) fun bs s r =>
      ∃ x s' bs₁ bs₂, bs = bs₁ ++ bs₂ ∧ G bs₁ s (x, s') ∧ H x bs₂ s' r := by
  intro pos ahead s y after
  rw [bind_eq_ok_iff]
  constructor
  · rintro ⟨x, ⟨c, s'⟩, hx, hy⟩
    obtain ⟨bs₁, tail₁, rfl, hc, hG⟩ := (hm ..).1 hx
    simp only at hc hG
    subst hc
    obtain ⟨bs₂, tail₂, rfl, hc, hH⟩ := (hf x ..).1 hy
    refine ⟨bs₁ ++ bs₂, tail₂, (List.append_assoc ..).symm, ?_, x, s', bs₁, bs₂, rfl, hG, hH⟩
    rw [hc, List.length_append, Nat.add_assoc]
  · rintro ⟨_, tail, rfl, hc, x, s', bs₁, bs₂, rfl, hG, hH⟩
    refine ⟨x, ⟨_, s'⟩, (hm ..).2 ⟨bs₁, bs₂ ++ tail, List.append_assoc .., rfl, hG⟩, ?_⟩
    refine (hf x ..).2 ⟨bs₂, tail, rfl, ?_, hH⟩
    rw [hc, List.length_append, Nat.add_assoc]

end Accepts

theorem accepts_pure (x : α) : Accepts (pure x : Walk σ α) fun bs s r => bs = [] ∧ r = (x, s) := by
  intro pos ahead s y after
  constructor
  · intro h
    cases h
    exact ⟨[], ahead, rfl, rfl, rfl, rfl⟩
  · rintro ⟨_, tail, rfl, hc, rfl, hr⟩
    obtain ⟨rfl, hs⟩ := Prod.mk.inj hr
    obtain ⟨c, s'⟩ := after
    cases hc
    cases hs
    rfl

/-- A failing action accepts nothing. -/
theorem accepts_throw (e : DecodeError) :
    Accepts (throw e : Walk σ α) fun _ _ _ => False := by
  intro pos ahead s x after
  constructor
  · intro h
    cases h
  · rintro ⟨_, _, _, _, h⟩
    exact h.elim

theorem accepts_building (operation : σ → α × σ) :
    Accepts (building operation) fun bs s r => bs = [] ∧ r = operation s := by
  intro pos ahead s x after
  constructor
  · intro h
    cases h
    exact ⟨[], ahead, rfl, rfl, rfl, rfl⟩
  · rintro ⟨_, tail, rfl, hc, rfl, hr⟩
    obtain ⟨c, s'⟩ := after
    cases hc
    simp only [building, ← hr]
    rfl

theorem accepts_reading {m : Cursor.Read α} {G : α → List UInt8 → Prop} (h : Recognises m G) :
    Accepts (reading m : Walk σ α) fun bs s r => r.2 = s ∧ G r.1 bs := by
  intro pos ahead s x after
  simp only [reading]
  constructor
  · intro hx
    split at hx
    · rename_i y c hy
      cases hx
      obtain ⟨bs, tail, rfl, rfl, hG⟩ := (h ..).1 hy
      exact ⟨bs, tail, rfl, rfl, rfl, hG⟩
    · cases hx
  · rintro ⟨bs, tail, rfl, hc, hs, hG⟩
    obtain ⟨c, s'⟩ := after
    cases hc
    cases hs
    rw [h.eq_ok hG]
    rfl

/-- The place where an action starts matters for errors only. -/
theorem accepts_position_bind {f : Nat → Walk σ α} {G : List UInt8 → σ → α × σ → Prop}
    (h : ∀ offset, Accepts (f offset) G) : Accepts (position >>= f) G :=
  fun pos ahead s x after => h pos pos ahead s x after

/-- A piece that the builder is told of. -/
theorem accepts_reading_building {m : Cursor.Read α} {G : α → List UInt8 → Prop}
    (h : Recognises m G) (operation : α → σ → β × σ) :
    Accepts (do let x ← reading m; building (operation x)) fun bs s r =>
      ∃ x, G x bs ∧ r = operation x s := by
  refine ((accepts_reading h).bind fun x => accepts_building (operation x)).congr
    fun bs s r => ⟨?_, ?_⟩
  · rintro ⟨x, s', bs₁, _, rfl, ⟨rfl, hG⟩, rfl, rfl⟩
    exact ⟨x, by rwa [List.append_nil], rfl⟩
  · rintro ⟨x, hG, rfl⟩
    exact ⟨x, s, bs, [], (List.append_nil bs).symm, ⟨rfl, hG⟩, rfl, rfl⟩

/-! ## Counts and texts -/

/-- A count is a number in any form, compared with the bytes left behind it. -/
theorem count_eq (unit : Nat) (c : Cursor) (s : σ) :
    count unit ⟨c, s⟩ =
      match Varint.read c with
      | .ok n after =>
        if n.toNat * unit ≤ after.remaining then .ok n.toNat ⟨after, s⟩
        else .error (.truncated c.pos) ⟨after, s⟩
      | .error e after => .error (e.refusal c.pos) ⟨after, s⟩ := by
  show EStateM.bind (reading Varint.read) _ _ = _
  simp only [EStateM.bind, reading]
  cases Varint.read c with
  | error e after => rfl
  | ok n after =>
    show (if n.toNat * unit ≤ after.remaining then (pure n.toNat : Walk σ Nat)
      else throw (.truncated c.pos)) ⟨after, s⟩ = _
    by_cases hle : n.toNat * unit ≤ after.remaining
    · simp only [if_pos hle]
      rfl
    · simp only [if_neg hle]
      rfl

/-- A count is accepted where as many items of the least size could follow. -/
theorem count_eq_ok_iff {unit pos n : Nat} {ahead : List UInt8} {s : σ} {after : State σ} :
    count unit ⟨facing pos ahead, s⟩ = .ok n after ↔
      ∃ k head tail, ahead = head ++ tail ∧ Varint.Form k head ∧ n = k.toNat ∧
        n * unit ≤ tail.length ∧ after = ⟨facing (pos + head.length) tail, s⟩ := by
  rw [count_eq]
  constructor
  · intro h
    split at h
    · rename_i k c hk
      obtain ⟨head, tail, rfl, rfl, hform⟩ := (Varint.recognises_read ..).1 hk
      rw [Cursor.remaining_facing] at h
      split at h
      · cases h
        exact ⟨k, head, tail, rfl, hform, rfl, ‹_›, rfl⟩
      · cases h
    · cases h
  · rintro ⟨k, head, tail, rfl, hform, rfl, hle, rfl⟩
    rw [Varint.recognises_read.eq_ok hform]
    simp only [Cursor.remaining_facing]
    rw [if_pos hle]

/-- The check of a count refuses nothing if what follows takes the least number of bytes anyway. -/
theorem accepts_count_bind {unit : Nat} {f : Nat → Walk σ α}
    {H : Nat → List UInt8 → σ → α × σ → Prop} (hf : ∀ n, Accepts (f n) (H n))
    (hlen : ∀ n bs s r, H n bs s r → n * unit ≤ bs.length) :
    Accepts (count unit >>= f) fun bs s r =>
      ∃ n head body, bs = head ++ body ∧ Varint.Form n head ∧ H n.toNat body s r := by
  intro pos ahead s x after
  rw [bind_eq_ok_iff]
  constructor
  · rintro ⟨_, _, hn, hx⟩
    obtain ⟨n, head, rest, rfl, hform, rfl, -, rfl⟩ := count_eq_ok_iff.1 hn
    obtain ⟨body, tail, rfl, hc, hH⟩ := (hf n.toNat ..).1 hx
    refine ⟨head ++ body, tail, (List.append_assoc ..).symm, ?_, n, head, body, rfl, hform, hH⟩
    rw [hc, List.length_append, Nat.add_assoc]
  · rintro ⟨_, tail, rfl, hc, n, head, body, rfl, hform, hH⟩
    -- What follows is long enough by itself, so the count passes whatever comes behind.
    have hle := hlen _ _ _ _ hH
    refine ⟨n.toNat, _, count_eq_ok_iff.2 ⟨n, head, body ++ tail, List.append_assoc .., hform, rfl,
      ?_, rfl⟩, (hf n.toNat ..).2 ⟨body, tail, rfl, ?_, hH⟩⟩
    · rw [List.length_append]
      omega
    · rw [hc, List.length_append, Nat.add_assoc]

theorem accepts_text :
    Accepts (text : Walk σ String) fun bs s r => r.2 = s ∧ Wire.Counted (Utf8.encode r.1) bs := by
  refine (accepts_count_bind (fun n => accepts_reading (Cursor.recognises_text n)) ?_).congr
    fun bs s r => ⟨?_, ?_⟩
  · rintro _ bs s r ⟨-, -, rfl⟩
    omega
  · rintro ⟨n, head, _, rfl, hn, rfl, rfl, hlen⟩
    exact ⟨rfl, .mk hn hlen.symm⟩
  · rintro ⟨rfl, hn, hlen⟩
    exact ⟨_, _, _, rfl, hn, rfl, rfl, hlen.symm⟩

end Walk

end WireTree
