import WireTree.Proofs.WalkActions
import WireTree.Proofs.WalkInduction

/-!
# Walks over windows that are cut short

What becomes of a walk if bytes are taken off the end of its window.

* `Walk.Shortened low stop lost full short`: the result `full` before all bytes and the result
  `short` without the bytes `lost` at the end are the same, up to the bytes that are still ahead, or
  the second is that something was truncated at a place from `low` to `stop`.
* `Walk.EndsEarly m`: that is so for the results of `m` from every place.
* `Cursor.Shortened` and `Cursor.EndsEarly` say the same of reading actions.

Up to the cut both walks see the same bytes. The one over fewer bytes can only differ by running out
of them, and whatever asks for bytes that are not there is refused as truncated: nothing is read
from a piece that is not there as a whole, and a count is compared with what is left.

Results:
* `Cursor.closed_endsEarly`, `Walk.closed_endsEarly`: the pieces of a walk end early, and
  composition keeps that.
* **`Walk.endsEarly_value`**: so reading a value ends early.
-/

namespace WireTree

open Cursor (facing)

variable {σ ν α β : Type}

namespace Cursor

/-- Two results are the same up to the bytes that are lost, or the second has met the end. -/
inductive Shortened (low stop : Nat) (lost : List UInt8) :
    EStateM.Result ReadError Cursor α → EStateM.Result ReadError Cursor α → Prop
  | ok {pos : Nat} {tail : List UInt8} (x : α) (hlow : low ≤ pos)
      (hstop : pos + tail.length = stop) :
      Shortened low stop lost (.ok x (facing pos (tail ++ lost))) (.ok x (facing pos tail))
  | error (e : ReadError) (full short : Cursor) :
      Shortened low stop lost (.error e full) (.error e short)
  | endOfBuffer (full : EStateM.Result ReadError Cursor α) (short : Cursor) :
      Shortened low stop lost full (.error .endOfBuffer short)

theorem Shortened.weaken {low low' stop : Nat} {lost : List UInt8}
    {full short : EStateM.Result ReadError Cursor α} (h : Shortened low' stop lost full short)
    (hle : low ≤ low') : Shortened low stop lost full short := by
  cases h with
  | ok x hlow hstop => exact .ok x (Nat.le_trans hle hlow) hstop
  | error e full short => exact .error e full short
  | endOfBuffer full short => exact .endOfBuffer full short

/-- Without its last bytes the action does the same, or meets the end. -/
def EndsEarly (m : Read α) : Prop :=
  ∀ (pos : Nat) (ahead lost : List UInt8),
    Shortened pos (pos + ahead.length) lost (m (facing pos (ahead ++ lost))) (m (facing pos ahead))

theorem EndsEarly.bind {m : Read α} {f : α → Read β} (hm : EndsEarly m)
    (hf : ∀ x, EndsEarly (f x)) : EndsEarly (m >>= f) := by
  intro pos ahead lost
  show Shortened _ _ _ (EStateM.bind m f _) (EStateM.bind m f _)
  unfold EStateM.bind
  have h := hm pos ahead lost
  generalize m (facing pos (ahead ++ lost)) = full, m (facing pos ahead) = short at h
  cases h with
  | @ok pos' tail x hlow hstop =>
    have hx := hf x pos' tail lost
    rw [hstop] at hx
    exact hx.weaken hlow
  | error e full short => exact .error e full short
  | endOfBuffer full short => exact .endOfBuffer _ short

/-- An action that needs all bytes is refused for those that are missing. -/
theorem EndsEarly.refused {m : Read α} (hm : EndsEarly m) {pos pos' : Nat} {ahead lost : List UInt8}
    {x : α} (hfull : m (facing pos (ahead ++ lost)) = .ok x (facing pos' [])) (hlost : lost ≠ []) :
    ∃ after, m (facing pos ahead) = .error .endOfBuffer after := by
  have hshort := hm pos ahead lost
  rw [hfull] at hshort
  generalize m (facing pos ahead) = short at hshort ⊢
  generalize hafter : facing pos' [] = after at hshort
  cases hshort with
  | @ok pos'' tail x hlow hstop =>
    -- With all bytes nothing is ahead behind the piece, so this cannot be the lost bytes.
    have hrest : [] = tail ++ lost := congrArg Cursor.rest hafter
    exact absurd (List.append_eq_nil_iff.1 hrest.symm).2 hlost
  | endOfBuffer full short => exact ⟨short, rfl⟩

/-- A request either fits into the bytes that are left, or goes past them. -/
theorem take_facing (n pos : Nat) (ahead : List UInt8) :
    (∃ bs tail, ahead = bs ++ tail ∧ bs.length = n) ∨
      take n (facing pos ahead) = .error .endOfBuffer (facing pos ahead) := by
  by_cases h : n ≤ ahead.length
  · exact .inl ⟨ahead.take n, ahead.drop n, (List.take_append_drop ..).symm,
      List.length_take_of_le h⟩
  · refine .inr (take_of_lt ?_)
    show pos + ahead.length < pos + n
    omega

theorem endsEarly_take (n : Nat) : EndsEarly (take n) := by
  intro pos ahead lost
  obtain ⟨bs, tail, rfl, hlen⟩ | hend := take_facing n pos ahead
  · rw [List.append_assoc, (recognises_take n).eq_ok ⟨rfl, hlen⟩,
      (recognises_take n).eq_ok ⟨rfl, hlen⟩]
    exact .ok bs (Nat.le_add_right ..) (by rw [List.length_append, Nat.add_assoc])
  · rw [hend]
    exact .endOfBuffer _ _

/-- The bytes of a text are all there before they are looked at. -/
theorem endsEarly_text (n : Nat) : EndsEarly (text n) := by
  intro pos ahead lost
  simp only [text]
  obtain ⟨bs, tail, rfl, hlen⟩ | hend := take_facing n pos ahead
  · rw [List.append_assoc, (recognises_take n).eq_ok ⟨rfl, hlen⟩,
      (recognises_take n).eq_ok ⟨rfl, hlen⟩]
    simp only
    cases Utf8.decode? bs with
    | some s => exact .ok s (Nat.le_add_right ..) (by rw [List.length_append, Nat.add_assoc])
    | none => exact .error .invalidUtf8 _ _
  · rw [hend]
    exact .endOfBuffer _ _

theorem closed_endsEarly : Closed EndsEarly where
  pure := fun x pos _ _ => .ok x (Nat.le_refl pos) rfl
  bind := EndsEarly.bind
  take := endsEarly_take
  text := endsEarly_text

end Cursor

namespace Walk

/-- Two results are the same up to the bytes that are lost, or the second is that something was
truncated at a place from `low` to `stop`. -/
inductive Shortened (low stop : Nat) (lost : List UInt8) :
    EStateM.Result DecodeError (State σ) α → EStateM.Result DecodeError (State σ) α → Prop
  | ok {pos : Nat} {tail : List UInt8} (x : α) (s : σ) (hlow : low ≤ pos)
      (hstop : pos + tail.length = stop) :
      Shortened low stop lost (.ok x ⟨facing pos (tail ++ lost), s⟩) (.ok x ⟨facing pos tail, s⟩)
  | error (e : DecodeError) (full short : State σ) :
      Shortened low stop lost (.error e full) (.error e short)
  | truncated (full : EStateM.Result DecodeError (State σ) α) (short : State σ) {offset : Nat}
      (hlow : low ≤ offset) (hstop : offset ≤ stop) :
      Shortened low stop lost full (.error (.truncated offset) short)

theorem Shortened.weaken {low low' stop : Nat} {lost : List UInt8}
    {full short : EStateM.Result DecodeError (State σ) α} (h : Shortened low' stop lost full short)
    (hle : low ≤ low') : Shortened low stop lost full short := by
  cases h with
  | ok x s hlow hstop => exact .ok x s (Nat.le_trans hle hlow) hstop
  | error e full short => exact .error e full short
  | truncated full short hlow hstop => exact .truncated full short (Nat.le_trans hle hlow) hstop

/-- Without its last bytes the action does the same, or something is truncated. -/
def EndsEarly (m : Walk σ α) : Prop :=
  ∀ (pos : Nat) (ahead lost : List UInt8) (s : σ),
    Shortened pos (pos + ahead.length) lost (m ⟨facing pos (ahead ++ lost), s⟩)
      (m ⟨facing pos ahead, s⟩)

theorem EndsEarly.bind {m : Walk σ α} {f : α → Walk σ β} (hm : EndsEarly m)
    (hf : ∀ x, EndsEarly (f x)) : EndsEarly (m >>= f) := by
  intro pos ahead lost s
  show Shortened _ _ _ (EStateM.bind m f _) (EStateM.bind m f _)
  unfold EStateM.bind
  have h := hm pos ahead lost s
  generalize m ⟨facing pos (ahead ++ lost), s⟩ = full, m ⟨facing pos ahead, s⟩ = short at h
  -- Where the first part still does the same, the second goes on from one place in both walks.
  cases h with
  | @ok pos' tail x s' hlow hstop =>
    have hx := hf x pos' tail lost s'
    rw [hstop] at hx
    exact hx.weaken hlow
  | error e full short => exact .error e full short
  | truncated full short hlow hstop => exact .truncated _ short hlow hstop

theorem endsEarly_reading {m : Cursor.Read α} (hm : Cursor.EndsEarly m) :
    EndsEarly (reading m : Walk σ α) := by
  intro pos ahead lost s
  simp only [reading]
  have h := hm pos ahead lost
  generalize m (facing pos (ahead ++ lost)) = full, m (facing pos ahead) = short at h
  cases h with
  | ok x hlow hstop => exact .ok x s hlow hstop
  | error e full short => exact .error _ _ _
  | endOfBuffer full short => exact .truncated _ _ (Nat.le_refl pos) (Nat.le_add_right ..)

/-- A count that is too large for the bytes left is refused where it stands. -/
theorem endsEarly_count (unit : Nat) : EndsEarly (count unit : Walk σ Nat) := by
  intro pos ahead lost s
  rw [count_eq, count_eq]
  have h := Cursor.closed_endsEarly.varint pos ahead lost
  generalize Varint.read (facing pos (ahead ++ lost)) = full,
    Varint.read (facing pos ahead) = short at h
  cases h with
  | @ok pos' tail n hlow hstop =>
    simp only [Cursor.remaining_facing, List.length_append]
    by_cases hfit : n.toNat * unit ≤ tail.length
    · rw [if_pos hfit, if_pos (Nat.le_trans hfit (Nat.le_add_right ..))]
      exact .ok _ s hlow hstop
    · rw [if_neg hfit]
      exact .truncated _ _ (Nat.le_refl pos) (Nat.le_add_right ..)
  | error e full short => exact .error _ _ _
  | endOfBuffer full short => exact .truncated _ _ (Nat.le_refl pos) (Nat.le_add_right ..)

theorem closed_endsEarly : Closed (σ := σ) Cursor.EndsEarly EndsEarly where
  cursor := Cursor.closed_endsEarly
  pure := fun x pos _ _ s => .ok x s (Nat.le_refl pos) rfl
  throw := fun e _ _ _ _ => .error e _ _
  bind := EndsEarly.bind
  position := fun pos _ _ s => .ok pos s (Nat.le_refl pos) rfl
  reading := endsEarly_reading
  count := endsEarly_count
  building := fun _ pos _ _ _ => .ok _ _ (Nat.le_refl pos) rfl

/-- **Without the last bytes of its window, reading a value does the same or something is
truncated.** -/
theorem endsEarly_value (b : Builder σ ν) (o : Options) (refusal : Refusal)
    (levels : Nat) : EndsEarly (value b o refusal levels) :=
  closed_endsEarly.value b o refusal levels

end Walk

end WireTree
