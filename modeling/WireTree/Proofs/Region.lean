import WireTree.Builder.CallLog
import WireTree.Proofs.Acceptance
import WireTree.Proofs.WalkInduction

/-!
# The declared region

Nothing outside of the declared region has any influence.

* `stateAfter` is the state that an action leaves, whether it succeeds or fails.
* `Cursor.Ahead c c'`: the second cursor is some bytes further on in the window of the first.
* `Cursor.Confined` and `Walk.Confined`: from wherever it starts, the action leaves its cursor ahead
  of there.

A walk gets the bytes of the region to begin with, and moves through them whatever lengths and
counts it meets. What it starts from is made of the bytes up to the declared size.

Results:
* **`Walk.confined_root`**: a walk never leaves its window.
* **`decodeWith_take_declaredSize`**: a buffer is decoded like the part of it that it declares.
* **`outcome_within_region`**: buffers that agree up to the size that both declare cannot be told
  apart, and no walk over them goes further.
-/

namespace WireTree

variable {σ ν α β : Type}

/-- The state that an action leaves, whether it succeeds or fails. -/
def stateAfter {ε : Type} : EStateM.Result ε σ α → σ
  | .ok _ s => s
  | .error _ s => s

/-- Actions that only go where a transitive relation allows can be composed. -/
theorem stateAfter_bind {ε : Type} {R : σ → σ → Prop}
    (htrans : ∀ {s s' s''}, R s s' → R s' s'' → R s s'') {m : EStateM ε σ α}
    {f : α → EStateM ε σ β} (hm : ∀ s, R s (stateAfter (m s)))
    (hf : ∀ x s, R s (stateAfter (f x s))) (s : σ) : R s (stateAfter ((m >>= f) s)) := by
  have h := hm s
  cases hresult : m s with
  | ok x after =>
    rw [hresult] at h
    rw [bind_of_eq_ok hresult]
    exact htrans h (hf x after)
  | error e after =>
    rw [hresult] at h
    rw [bind_of_eq_error hresult]
    exact h

namespace Cursor

/-! ## Moving through a window -/

theorem advance_advance (c : Cursor) (m n : Nat) :
    (c.advance m).advance n = c.advance (m + n) := by
  simp only [advance, List.drop_drop, Nat.add_assoc]

theorem remaining_advance (c : Cursor) (n : Nat) : (c.advance n).remaining = c.remaining - n :=
  Nat.sub_add_eq ..

/-- Further on in a window is a window that starts there. -/
theorem advance_window (bytes : List UInt8) {start stop n : Nat} :
    (window bytes start stop).advance n = window bytes (start + n) stop := by
  simp only [window, advance, List.drop_take, List.drop_drop, Nat.sub_add_eq]

/-- The second cursor is some bytes further on in the window of the first. -/
def Ahead (c c' : Cursor) : Prop :=
  ∃ n ≤ c.remaining, c' = c.advance n

namespace Ahead

protected theorem refl (c : Cursor) : Ahead c c :=
  ⟨0, Nat.zero_le _, rfl⟩

protected theorem trans {c c' c'' : Cursor} (h : Ahead c c') (h' : Ahead c' c'') :
    Ahead c c'' := by
  obtain ⟨m, hm, rfl⟩ := h
  obtain ⟨n, hn, rfl⟩ := h'
  rw [remaining_advance] at hn
  exact ⟨m + n, by omega, advance_advance ..⟩

end Ahead

/-- From wherever it starts, the action stays in its window and does not go back. -/
def Confined (m : Read α) : Prop :=
  ∀ c, Ahead c (stateAfter (m c))

theorem Confined.bind {m : Read α} {f : α → Read β} (hm : Confined m) (hf : ∀ x, Confined (f x)) :
    Confined (m >>= f) :=
  stateAfter_bind (R := Ahead) Ahead.trans hm hf

theorem confined_take (n : Nat) : Confined (take n) := by
  intro c
  by_cases h : c.pos + n ≤ c.stop
  · rw [take_of_le h]
    exact ⟨n, Nat.le_sub_of_add_le' h, rfl⟩
  · rw [take_of_lt (Nat.lt_of_not_le h)]
    exact .refl c

/-- Bytes that are no text are given back. -/
theorem confined_text (n : Nat) : Confined (text n) := by
  intro c
  have h := confined_take n c
  simp only [text]
  generalize take n c = result at h
  cases result with
  | error e after => exact h
  | ok bytes after =>
    simp only
    cases Utf8.decode? bytes with
    | some s => exact h
    | none => exact .refl c

theorem closed_confined : Closed Confined where
  pure := fun _ c => .refl c
  bind := Confined.bind
  take := confined_take
  text := confined_text

end Cursor

namespace Walk

open Cursor (Ahead)

/-! ## Walks stay in their window -/

/-- From wherever it starts, the action stays in its window and does not go back. -/
def Confined (m : Walk σ α) : Prop :=
  ∀ s, Ahead s.cursor (stateAfter (m s)).cursor

theorem Confined.bind {m : Walk σ α} {f : α → Walk σ β} (hm : Confined m)
    (hf : ∀ x, Confined (f x)) : Confined (m >>= f) :=
  stateAfter_bind (R := fun s s' : State σ => Ahead s.cursor s'.cursor) Ahead.trans hm hf

theorem confined_reading {m : Cursor.Read α} (hm : Cursor.Confined m) :
    Confined (reading m : Walk σ α) := by
  intro s
  have h := hm s.cursor
  simp only [reading]
  generalize m s.cursor = result at h
  cases result with
  | ok x after => exact h
  | error e after => exact h

theorem confined_remaining : Confined (remaining : Walk σ Nat) :=
  fun s => .refl s.cursor

/-- A count that is too large is refused without another read. -/
theorem confined_count (unit : Nat) : Confined (count unit : Walk σ Nat) := by
  refine Confined.bind (fun s => .refl s.cursor) fun offset => ?_
  refine (confined_reading Cursor.closed_confined.varint).bind fun n => ?_
  refine confined_remaining.bind fun left => ?_
  split
  · exact fun s => .refl s.cursor
  · exact fun s => .refl s.cursor

theorem closed_confined : Closed (σ := σ) Cursor.Confined Confined where
  cursor := Cursor.closed_confined
  pure := fun _ s => .refl s.cursor
  throw := fun _ s => .refl s.cursor
  bind := Confined.bind
  position := fun s => .refl s.cursor
  reading := confined_reading
  count := confined_count
  building := fun _ s => .refl s.cursor

/-- **A walk never leaves its window**, whether it succeeds or fails. -/
theorem confined_root (b : Builder σ ν) (o : Options) (h : Header) : Confined (root b o h) := by
  refine (closed_confined.value b o (o.refusal 0) (o.levels 0)).bind fun node => ?_
  refine confined_remaining.bind fun unused => ?_
  split
  · exact fun s => .refl s.cursor
  · exact fun s => .refl s.cursor

end Walk

/-! ## Whole buffers -/

/-- Wherever a walk over a buffer ends, it has the bytes from there to the declared size ahead, and
is no further than that. -/
theorem root_cursor {bytes : List UInt8} (hfits : HeaderFits bytes) (b : Builder σ ν) (o : Options)
    (s : σ) :
    ∃ pos, headerSize ≤ pos ∧ pos ≤ (declaredSize bytes).toNat ∧
      (stateAfter (Walk.root b o ⟨declaredSize bytes⟩
        ⟨Header.region ⟨declaredSize bytes⟩ bytes, s⟩)).cursor =
        Cursor.window bytes pos (declaredSize bytes).toNat := by
  have hwalk := Walk.confined_root b o ⟨declaredSize bytes⟩
    ⟨Header.region ⟨declaredSize bytes⟩ bytes, s⟩
  obtain ⟨n, hn, hcursor⟩ := hwalk
  have hregion := hfits.length_region
  rw [region_eq_facing hfits, Cursor.remaining_facing] at hn
  refine ⟨headerSize + n, Nat.le_add_right .., by omega, hcursor.trans ?_⟩
  exact Cursor.advance_window ..

section
variable {bytes : List UInt8} (hfits : HeaderFits bytes)
include hfits

theorem HeaderFits.headerSize_le : headerSize ≤ (declaredSize bytes).toNat :=
  Nat.le_trans (by decide) hfits.1

theorem HeaderFits.take_declaredSize : HeaderFits (bytes.take (declaredSize bytes).toNat) := by
  rw [HeaderFits, declaredSize_take hfits.headerSize_le, List.length_take_of_le hfits.2]
  exact ⟨hfits.1, Nat.le_refl _⟩

/-- The walk starts from the same window if the bytes behind the declared size are gone. -/
theorem region_take_declaredSize :
    Header.region ⟨declaredSize bytes⟩ (bytes.take (declaredSize bytes).toNat) =
      Header.region ⟨declaredSize bytes⟩ bytes := by
  have hstart := region_eq_facing hfits.take_declaredSize
  rw [declaredRegion, declaredSize_take hfits.headerSize_le, List.take_take, Nat.min_self] at hstart
  rw [hstart, region_eq_facing hfits, declaredRegion]

/-- **A buffer is decoded like the part of it that it declares**: with any builder, in any state of
the builder, to the same node or error, and to the same state of the builder. -/
theorem decodeWith_take_declaredSize (b : Builder σ ν) (o : Options) (s : σ) :
    decodeWith b o (bytes.take (declaredSize bytes).toNat) s = decodeWith b o bytes s := by
  have hparse := headerParse_eq_ok_iff.2 ⟨hfits.take_declaredSize, rfl⟩
  rw [declaredSize_take hfits.headerSize_le] at hparse
  simp only [decodeWith, hparse, headerParse_eq_ok_iff.2 ⟨hfits, rfl⟩,
    region_take_declaredSize hfits]

end

/-- **Nothing outside of the declared region influences a result.** Two buffers whose headers
declare the same size, and which agree up to it, get the same answer or the same error from the
check, from decoding to values and to JSON, and with every builder, which is also left in the same
state: what it was asked to do, and in which order, is the same.

However the body claims lengths and counts, the walk over such a buffer ends before or at the
declared size, with exactly the bytes from there to the declared size ahead of it. -/
theorem outcome_within_region {bytes₁ bytes₂ : List UInt8} {d : Nat}
    (h₁ : (declaredSize bytes₁).toNat = d) (h₂ : (declaredSize bytes₂).toNat = d)
    (hmin : minBufferSize ≤ d) (hmax : d ≤ min bytes₁.length bytes₂.length)
    (heq : bytes₁.take d = bytes₂.take d) (o : Options) :
    check o bytes₁ = check o bytes₂ ∧ decode o bytes₁ = decode o bytes₂ ∧
      decodeJson o bytes₁ = decodeJson o bytes₂ ∧
      ∀ {σ ν : Type} (b : Builder σ ν) (s : σ),
        decodeWith b o bytes₁ s = decodeWith b o bytes₂ s ∧
        ∃ pos, headerSize ≤ pos ∧ pos ≤ d ∧
          (stateAfter (Walk.root b o ⟨declaredSize bytes₁⟩
            ⟨Header.region ⟨declaredSize bytes₁⟩ bytes₁, s⟩)).cursor =
            Cursor.window bytes₁ pos d := by
  obtain ⟨hmax₁, hmax₂⟩ := Nat.le_min.1 hmax
  have hfits₁ : HeaderFits bytes₁ := ⟨h₁ ▸ hmin, h₁ ▸ hmax₁⟩
  have hfits₂ : HeaderFits bytes₂ := ⟨h₂ ▸ hmin, h₂ ▸ hmax₂⟩
  have hdecode : ∀ {σ ν : Type} (b : Builder σ ν) (o : Options) (s : σ),
      decodeWith b o bytes₁ s = decodeWith b o bytes₂ s := by
    intro σ ν b o s
    rw [← decodeWith_take_declaredSize hfits₁, ← decodeWith_take_declaredSize hfits₂, h₁, h₂, heq]
  refine ⟨?_, ?_, ?_, fun b s => ⟨hdecode b o s, ?_⟩⟩
  · rw [check, hdecode, check]
  · rw [decode, decodeTree, hdecode, decode, decodeTree]
  · rw [decodeJson, decodeTree, hdecode, decodeJson, decodeTree]
  · subst h₁
    exact root_cursor hfits₁ b o s

/-- An array of two whose second number would need a byte behind the declared size: it is not read
from there, whatever stands there. -/
theorem outcome_within_region_number :
    let bytes₁ : List UInt8 := [10, 0, 0, 0, 0x0e, 2, 0x02, 7, 0x03, 1, 2]
    let bytes₂ : List UInt8 := [10, 0, 0, 0, 0x0e, 2, 0x02, 7, 0x03, 1, 0xff, 0xff]
    let log : CallLog := { next := 2, calls := #[.array 0 2, .integer 1 7, .append 0 1] }
    ((declaredSize bytes₁).toNat = 10 ∧ (declaredSize bytes₂).toNat = 10 ∧ minBufferSize ≤ 10 ∧
      10 ≤ min bytes₁.length bytes₂.length ∧ bytes₁.take 10 = bytes₂.take 10) ∧
    decode {} bytes₁ = decode {} bytes₂ ∧
    decodeWith (Builder.callLog true) {} bytes₁ {} =
      decodeWith (Builder.callLog true) {} bytes₂ {} ∧
    decodeWith (Builder.callLog true) {} bytes₂ {} = (.error (.truncated 9), log) := by
  intro bytes₁ bytes₂ log
  have h₁ : (declaredSize bytes₁).toNat = 10 := rfl
  have h₂ : (declaredSize bytes₂).toNat = 10 := rfl
  have heq : bytes₁.take 10 = bytes₂.take 10 := rfl
  obtain ⟨-, hdecode, -, hbuilders⟩ :=
    outcome_within_region h₁ h₂ (by decide) (by decide) heq {}
  have hlog := (hbuilders (Builder.callLog true) {}).1
  exact ⟨⟨h₁, h₂, by decide, by decide, heq⟩, hdecode, hlog, rfl⟩

end WireTree
