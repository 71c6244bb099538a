import WireTree.Item
import WireTree.LittleEndian.Lemmas

/-!
# Pieces that reading recognises

What a reading action takes from the front of its window, said without positions.

* `Cursor.facing pos ahead` is the cursor at `pos` whose window holds exactly the bytes `ahead`.
* `Cursor.Recognises m G`: from any such cursor the action `m` succeeds exactly if some bytes at the
  front form a piece, and then it answers what `G` says about the piece and faces what follows.
* `Recognises.bind` composes pieces to longer ones.

Results:
* `recognises_take`, `recognises_word`, `recognises_byte`, `recognises_single`,
  `recognises_double`, `recognises_text`: the pieces of each reading action.
-/

namespace WireTree

/-- A composed action succeeds exactly if both parts do, one after the other. -/
theorem bind_eq_ok_iff {ε σ α β : Type} {m : EStateM ε σ α} {f : α → EStateM ε σ β} {s s'' : σ}
    {y : β} : (m >>= f) s = .ok y s'' ↔ ∃ x s', m s = .ok x s' ∧ f x s' = .ok y s'' := by
  show (match m s with | .ok x s' => f x s' | .error e s' => .error e s') = _ ↔ _
  cases m s with
  | ok x s' =>
    constructor
    · intro h
      exact ⟨x, s', rfl, h⟩
    · rintro ⟨_, _, h, h'⟩
      cases h
      exact h'
  | error e s' =>
    constructor
    · intro h
      cases h
    · rintro ⟨_, _, h, -⟩
      cases h

/-- After a first part that succeeds, a composed action goes on with the second. -/
theorem bind_of_eq_ok {ε σ α β : Type} {m : EStateM ε σ α} {s s' : σ} {x : α}
    (h : m s = .ok x s') (f : α → EStateM ε σ β) : (m >>= f) s = f x s' := by
  show (match m s with | .ok x s' => f x s' | .error e s' => .error e s') = _
  rw [h]

/-- After a first part that fails, a composed action has failed. -/
theorem bind_of_eq_error {ε σ α β : Type} {m : EStateM ε σ α} {s s' : σ} {e : ε}
    (h : m s = .error e s') (f : α → EStateM ε σ β) : (m >>= f) s = .error e s' := by
  show (match m s with | .ok x s' => f x s' | .error e s' => .error e s') = _
  rw [h]

namespace Cursor

/-- The cursor at `pos` whose window holds exactly the bytes `ahead`. -/
def facing (pos : Nat) (ahead : List UInt8) : Cursor where
  pos := pos
  stop := pos + ahead.length
  rest := ahead
  length_rest := by omega

theorem remaining_facing (pos : Nat) (ahead : List UInt8) :
    (facing pos ahead).remaining = ahead.length :=
  Nat.add_sub_cancel_left ..

theorem advance_facing (pos : Nat) (bs tail : List UInt8) :
    (facing pos (bs ++ tail)).advance bs.length = facing (pos + bs.length) tail := by
  simp only [facing, advance, List.length_append, List.drop_left, mk.injEq, true_and, and_true]
  omega

/-- From every cursor that faces bytes, `m` succeeds exactly on pieces that `G` describes. -/
def Recognises {α : Type} (m : Read α) (G : α → List UInt8 → Prop) : Prop :=
  ∀ (pos : Nat) (ahead : List UInt8) (x : α) (after : Cursor),
    m (facing pos ahead) = .ok x after ↔
      ∃ bs tail, ahead = bs ++ tail ∧ after = facing (pos + bs.length) tail ∧ G x bs

namespace Recognises

variable {α β : Type} {m : Read α} {G : α → List UInt8 → Prop}

/-- A piece at the front is read. -/
theorem eq_ok (h : Recognises m G) {x : α} {bs : List UInt8} (hG : G x bs) (pos : Nat)
    (tail : List UInt8) : m (facing pos (bs ++ tail)) = .ok x (facing (pos + bs.length) tail) :=
  (h ..).2 ⟨bs, tail, rfl, rfl, hG⟩

theorem congr {G' : α → List UInt8 → Prop} (h : Recognises m G) (hG : ∀ x bs, G x bs ↔ G' x bs) :
    Recognises m G' := by
  intro pos ahead x after
  rw [h pos ahead x after]
  simp only [hG]

protected theorem pure (x : α) : Recognises (pure x) (fun y bs => y = x ∧ bs = []) := by
  intro pos ahead y after
  constructor
  · intro h
    cases h
    exact ⟨[], ahead, rfl, rfl, rfl, rfl⟩
  · rintro ⟨_, tail, rfl, rfl, rfl, rfl⟩
    rfl

/-- A piece followed by another one. -/
theorem bind {f : α → Read β} {H : α → β → List UInt8 → Prop} (hm : Recognises m G)
    (hf : ∀ x, Recognises (f x) (H x)) :
    Recognises (m >>= f) fun y bs => ∃ x bs₁ bs₂, bs = bs₁ ++ bs₂ ∧ G x bs₁ ∧ H x y bs₂ := by
  intro pos ahead y after
  rw [bind_eq_ok_iff]
  constructor
  · rintro ⟨x, c, hx, hy⟩
    obtain ⟨bs₁, tail₁, rfl, rfl, hG⟩ := (hm ..).1 hx
    obtain ⟨bs₂, tail₂, rfl, rfl, hH⟩ := (hf x ..).1 hy
    refine ⟨bs₁ ++ bs₂, tail₂, (List.append_assoc ..).symm, ?_, x, bs₁, bs₂, rfl, hG, hH⟩
    rw [List.length_append, Nat.add_assoc]
  · rintro ⟨_, tail, rfl, rfl, x, bs₁, bs₂, rfl, hG, hH⟩
    refine ⟨x, _, (hm ..).2 ⟨bs₁, bs₂ ++ tail, List.append_assoc .., rfl, hG⟩, ?_⟩
    rw [List.length_append, ← Nat.add_assoc]
    exact (hf x).eq_ok hH ..

/-- A piece whose content is seen as something else. -/
theorem map (f : α → β) (hm : Recognises m G) :
    Recognises (do return f (← m)) fun y bs => ∃ x, y = f x ∧ G x bs := by
  refine (hm.bind fun x => Recognises.pure (f x)).congr fun y bs => ?_
  constructor
  · rintro ⟨x, bs₁, bs₂, rfl, hG, rfl, rfl⟩
    exact ⟨x, rfl, by rwa [List.append_nil]⟩
  · rintro ⟨x, rfl, hG⟩
    exact ⟨x, bs, [], (List.append_nil bs).symm, hG, rfl, rfl⟩

end Recognises

/-! ## The pieces of each reading action -/

theorem recognises_take (n : Nat) :
    Recognises (take n) fun x bs => x = bs ∧ bs.length = n := by
  intro pos ahead x after
  constructor
  · intro h
    simp only [take] at h
    split at h
    · rename_i hle
      cases h
      obtain ⟨bs, tail, rfl, rfl⟩ : ∃ bs tail, ahead = bs ++ tail ∧ bs.length = n :=
        ⟨ahead.take n, ahead.drop n, (List.take_append_drop ..).symm,
          List.length_take_of_le (Nat.le_of_add_le_add_left hle)⟩
      exact ⟨bs, tail, rfl, advance_facing .., List.take_left, rfl⟩
    · cases h
  · rintro ⟨bs, tail, rfl, rfl, rfl, rfl⟩
    rw [take_of_le (by simp [facing]), advance_facing]
    simp [facing]

theorem recognises_word (w : Width) : Recognises (word w) fun x bs => bs = w.encode x := by
  refine ((recognises_take w.bytes).map w.decode).congr fun x bs => ?_
  constructor
  · rintro ⟨_, rfl, rfl, hlen⟩
    exact (w.encode_decode hlen).symm
  · rintro rfl
    exact ⟨_, (w.decode_encode x).symm, rfl, w.length_encode x⟩

theorem encode_w8 (x : BitVec 8) : Width.w8.encode x = [UInt8.ofBitVec x] := by
  simp only [Width.encode, Width.bytes, LittleEndian.encode, List.cons.injEq, and_true]
  apply UInt8.toNat_inj.1
  simp

theorem recognises_byte : Recognises byte fun b bs => bs = [b] := by
  refine ((recognises_word .w8).map UInt8.ofBitVec).congr fun b bs => ?_
  constructor
  · rintro ⟨x, rfl, rfl⟩
    exact encode_w8 x
  · rintro rfl
    exact ⟨b.toBitVec, rfl, (encode_w8 b.toBitVec).symm⟩

theorem recognises_single : Recognises single fun x bs => bs = Width.w32.encode x.bits := by
  refine ((recognises_word .w32).map Binary.mk).congr fun x bs => ?_
  constructor
  · rintro ⟨_, rfl, rfl⟩
    rfl
  · rintro rfl
    exact ⟨x.bits, rfl, rfl⟩

theorem recognises_double : Recognises double fun x bs => bs = Width.w64.encode x.bits := by
  refine ((recognises_word .w64).map Binary.mk).congr fun x bs => ?_
  constructor
  · rintro ⟨_, rfl, rfl⟩
    rfl
  · rintro rfl
    exact ⟨x.bits, rfl, rfl⟩

theorem recognises_text (n : Nat) :
    Recognises (text n) fun s bs => bs = Utf8.encode s ∧ bs.length = n := by
  intro pos ahead s after
  simp only [text]
  constructor
  · intro h
    split at h
    · cases h
    · rename_i bs c hbs
      split at h
      · rename_i s' hs
        cases h
        obtain ⟨_, tail, rfl, rfl, rfl, hlen⟩ := (recognises_take n ..).1 hbs
        exact ⟨bs, tail, rfl, rfl, Utf8.decode?_eq_some_iff.1 hs, hlen⟩
      · cases h
  · rintro ⟨_, tail, rfl, rfl, rfl, hlen⟩
    rw [(recognises_take n).eq_ok ⟨rfl, hlen⟩]
    simp only [Utf8.decode?_encode]

end Cursor

end WireTree
