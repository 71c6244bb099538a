import WireTree.Proofs.IntegerWidths
import WireTree.Proofs.Reading

/-!
# The forms of a variable-width number

A number may be its own byte, or a marker and a word of any width that holds it.

* `Varint.Form n bs`: the bytes `bs` are a form of `n`, padded or not.

Results:
* **`Varint.recognises_read`**: reading takes every form, and nothing else.
* `Varint.form_encode`, **`Varint.size_le_of_form`**: writing gives a form, and none is shorter.
-/

namespace WireTree.Varint

open Cursor (Recognises recognises_byte recognises_word)

/-- The bytes are a form of the number. -/
inductive Form : UInt64 → List UInt8 → Prop
  | direct {b : UInt8} (h : b.toNat ≤ 0xfc) : Form b.toUInt64 [b]
  | word {w : Width} (h : w ≠ .w8) (x : BitVec w.bits) :
      Form (UInt64.ofBitVec (x.setWidth 64)) (marker w :: w.encode x)

/-! ## Markers -/

theorem ofMarker?_eq_none_iff {b : UInt8} : ofMarker? b = none ↔ b.toNat ≤ 0xfc := by
  have hb := b.toNat_lt
  simp only [ofMarker?, ← UInt8.toNat_inj]
  constructor
  · intro h
    split at h
    · cases h
    split at h
    · cases h
    split at h
    · cases h
    · simp at *
      omega
  · intro h
    rw [if_neg, if_neg, if_neg] <;> simp <;> omega

theorem ofMarker?_eq_some_iff {b : UInt8} {w : Width} :
    ofMarker? b = some w ↔ w ≠ .w8 ∧ b = marker w := by
  constructor
  · intro h
    unfold ofMarker? at h
    split at h
    · cases h
      exact ⟨by decide, ‹_›⟩
    split at h
    · cases h
      exact ⟨by decide, ‹_›⟩
    split at h
    · cases h
      exact ⟨by decide, ‹_›⟩
    · cases h
  · rintro ⟨hw, rfl⟩
    exact ofMarker?_marker hw

/-! ## Reading -/

/-- A first byte that is no marker is a form by itself. -/
theorem form_cons_iff_of_none {first : UInt8} (h : ofMarker? first = none) {n : UInt64}
    {bs : List UInt8} : Form n (first :: bs) ↔ n = first.toUInt64 ∧ bs = [] := by
  constructor
  · intro hform
    cases hform with
    | direct => exact ⟨rfl, rfl⟩
    | word hw =>
      rw [ofMarker?_marker hw] at h
      cases h
  · rintro ⟨rfl, rfl⟩
    exact .direct (ofMarker?_eq_none_iff.1 h)

/-- A marker makes a form together with a word of its width. -/
theorem form_cons_iff_of_some {first : UInt8} {w : Width} (h : ofMarker? first = some w)
    {n : UInt64} {bs : List UInt8} :
    Form n (first :: bs) ↔
      ∃ x : BitVec w.bits, n = UInt64.ofBitVec (x.setWidth 64) ∧ bs = w.encode x := by
  constructor
  · intro hform
    cases hform with
    | direct hb =>
      rw [ofMarker?_eq_none_iff.2 hb] at h
      cases h
    | word hv x =>
      rw [ofMarker?_marker hv] at h
      obtain rfl := Option.some.inj h
      exact ⟨x, rfl, rfl⟩
  · rintro ⟨x, rfl, rfl⟩
    obtain ⟨hw, rfl⟩ := ofMarker?_eq_some_iff.1 h
    exact .word hw x

/-- **Reading takes every form of a number, and nothing else.** -/
theorem recognises_read : Recognises read Form := by
  suffices second : ∀ first : UInt8, Recognises _ fun n bs => Form n (first :: bs) by
    refine (recognises_byte.bind second).congr fun n bs => ⟨?_, fun h => ?_⟩
    · rintro ⟨first, _, rest, rfl, rfl, h⟩
      exact h
    · cases h with
      | direct h => exact ⟨_, [_], [], rfl, rfl, .direct h⟩
      | word h x => exact ⟨_, [_], _, rfl, rfl, .word h x⟩
  intro first
  cases hw : ofMarker? first with
  | none =>
    refine (Recognises.pure first.toUInt64).congr fun n bs => ?_
    exact (form_cons_iff_of_none hw).symm
  | some w =>
    refine ((recognises_word w).map fun x => UInt64.ofBitVec (x.setWidth 64)).congr fun n bs => ?_
    exact (form_cons_iff_of_some hw).symm

/-- What follows a number changes neither where it ends nor which it is. -/
theorem Form.unique {m n : UInt64} {bs cs tail tail' : List UInt8} (h : Form m bs) (h' : Form n cs)
    (heq : bs ++ tail = cs ++ tail') : m = n ∧ bs.length = cs.length := by
  have hread := recognises_read.eq_ok h 0 tail
  rw [heq, recognises_read.eq_ok h' 0 tail'] at hread
  obtain ⟨hnumber, hafter⟩ := EStateM.Result.ok.inj hread
  have hpos := congrArg Cursor.pos hafter
  exact ⟨hnumber.symm, Nat.add_left_cancel hpos.symm⟩

/-! ## Writing -/

theorem Form.length_pos {n : UInt64} {bs : List UInt8} (h : Form n bs) : 0 < bs.length := by
  cases h <;> exact Nat.succ_pos _

theorem narrowest?_eq (n : UInt64) :
    narrowest? n =
      if n.toNat ≤ 0xfc then none
      else if n.toNat ≤ 0xffff then some .w16
      else if n.toNat ≤ 0xffffffff then some .w32
      else some .w64 := by
  simp only [narrowest?, directMax, UInt64.le_iff_toNat_le]
  rfl

theorem size_eq (n : UInt64) :
    size n =
      if n.toNat ≤ 0xfc then 1
      else if n.toNat ≤ 0xffff then 3
      else if n.toNat ≤ 0xffffffff then 5
      else 9 := by
  simp only [size, directMax, UInt64.le_iff_toNat_le]
  rfl

theorem le_of_narrowest?_eq_none {n : UInt64} (h : narrowest? n = none) : n.toNat ≤ 0xfc := by
  rw [narrowest?_eq] at h
  split at h
  · assumption
  split at h
  · cases h
  split at h <;> cases h

/-- The narrowest form announces a word that holds the number. -/
theorem lt_of_narrowest?_eq_some {n : UInt64} {w : Width} (h : narrowest? n = some w) :
    w ≠ .w8 ∧ n.toNat < 2 ^ w.bits := by
  have hn := n.toNat_lt
  rw [narrowest?_eq] at h
  split at h
  · cases h
  split at h
  · cases h
    exact ⟨by decide, Nat.lt_succ_of_le ‹_›⟩
  split at h
  · cases h
    exact ⟨by decide, Nat.lt_succ_of_le ‹_›⟩
  · cases h
    exact ⟨by decide, hn⟩

theorem form_encode (n : UInt64) : Form n (encode n) := by
  unfold encode
  cases hw : narrowest? n with
  | none =>
    have hn := le_of_narrowest?_eq_none hw
    have hb : n.toUInt8.toNat = n.toNat := by
      rw [UInt64.toNat_toUInt8]
      omega
    have hform := Form.direct (b := n.toUInt8) (by omega)
    rwa [show n.toUInt8.toUInt64 = n from UInt64.toNat_inj.1 (by simpa using hb)] at hform
  | some w =>
    obtain ⟨hne, hlt⟩ := lt_of_narrowest?_eq_some hw
    have hform := Form.word hne (n.toBitVec.setWidth w.bits)
    rwa [ofBitVec_setWidth_setWidth hlt] at hform

theorem size_le_of_lt {n : UInt64} {w : Width} (hw : w ≠ .w8) (h : n.toNat < 2 ^ w.bits) :
    size n ≤ w.bytes + 1 := by
  rw [size_eq]
  cases w with
  | w8 => exact absurd rfl hw
  | w16 =>
    rw [if_pos (c := n.toNat ≤ 0xffff) (Nat.le_of_lt_succ h)]
    split <;> decide
  | w32 =>
    rw [if_pos (c := n.toNat ≤ 0xffffffff) (Nat.le_of_lt_succ h)]
    split
    · decide
    split <;> decide
  | w64 =>
    split
    · decide
    split
    · decide
    split <;> decide

/-- A smaller number takes no more bytes. -/
theorem size_mono {m n : UInt64} (h : m.toNat ≤ n.toNat) : size m ≤ size n := by
  rw [size_eq, size_eq]
  grind

/-- **No form of a number is shorter than the one that is written.** -/
theorem size_le_of_form {n : UInt64} {bs : List UInt8} (h : Form n bs) : size n ≤ bs.length := by
  cases h with
  | @direct b hb =>
    rw [size_eq, if_pos (by simpa using hb)]
    exact Nat.le_refl 1
  | @word w hw x =>
    rw [List.length_cons, Width.length_encode]
    apply size_le_of_lt hw
    rw [UInt64.toNat_ofBitVec, BitVec.toNat_setWidth]
    exact Nat.lt_of_le_of_lt (Nat.mod_le _ _) x.isLt

end WireTree.Varint
