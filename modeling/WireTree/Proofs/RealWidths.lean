import WireTree.Real.Binary
import Mathlib.Algebra.Order.Ring.Nat

/-!
# Reals of two widths

Widening and narrowing undo each other, because a pattern is put together from its parts as it was
taken apart.

* A subnormal 32-bit fraction with the leading one at `l` becomes the exponent `874 + l` and the
  bits below the leading one, shifted up by `52 - l`. Narrowing shifts the other way, by
  `926 - e = 52 - l`.

Results:
* **`widen_of_narrow?`**: a real that takes 32 bits is read back as itself, sign of zero included.
* **`narrow?_widen`**: what 32 bits say, and what is a number, takes 32 bits again.
* `isNaN_widen`, `narrow?_of_isNaN`: what is not a number stays so, and takes 64 bits.
-/

namespace WireTree

namespace Binary

/-! ## Widening -/

/-- A pattern with a normal exponent is widened by moving the bias and the fraction. -/
theorem widen_ofParts_normal {s : Bool} {e m : Nat} (he₀ : e ≠ 0) (he : e < 255)
    (hm : m < 0x80_0000) :
    (ofParts s e m).widen = .ofParts s (e + 896) (m * 0x2000_0000) := by
  have hfits : RealFormat.single.Fits e m := ⟨Nat.lt_succ_of_lt he, hm⟩
  simp only [widen, negative_ofParts hfits, exponent_ofParts hfits, fraction_ofParts hfits]
  rw [if_neg (Nat.ne_of_lt he), if_neg he₀]

/-- A subnormal pattern is widened by shifting its leading one out of the fraction. -/
theorem widen_ofParts_subnormal {s : Bool} {m : Nat} (hm₀ : m ≠ 0) (hm : m < 0x80_0000) :
    (ofParts s 0 m).widen =
      .ofParts s (874 + m.log2) ((m - 2 ^ m.log2) * 2 ^ (52 - m.log2)) := by
  have hfits : RealFormat.single.Fits 0 m := ⟨by decide, hm⟩
  simp only [widen, negative_ofParts hfits, exponent_ofParts hfits, fraction_ofParts hfits]
  rw [if_neg (by decide), if_pos trivial, if_neg hm₀]
  rfl

theorem widen_ofParts_zero (s : Bool) : (ofParts s 0 0).widen = .ofParts s 0 0 := by
  cases s <;> rfl

theorem widen_ofParts_infinite (s : Bool) : (ofParts s 255 0).widen = .ofParts s 2047 0 := by
  cases s <;> rfl

/-! ## Narrowing and widening undo each other -/

/-- A significand of 53 bits without its `n` last bits, all of them zero, has the leading one at
`52 - n`. -/
theorem log2_shifted {k n : Nat} (hn : n ≤ 52) (hlow : 0x10_0000_0000_0000 ≤ 2 ^ n * k)
    (hhigh : 2 ^ n * k < 0x20_0000_0000_0000) : k.log2 = 52 - n := by
  have hpos : 0 < 2 ^ n := Nat.two_pow_pos n
  have hsplit : 2 ^ n * 2 ^ (52 - n) = 0x10_0000_0000_0000 := by
    rw [← Nat.pow_add, show n + (52 - n) = 52 by omega]
  have hk : 2 ^ (52 - n) ≤ k := by
    apply Nat.le_of_mul_le_mul_left _ hpos
    omega
  have hk' : k < 2 ^ (52 - n + 1) := by
    apply Nat.lt_of_mul_lt_mul_left (a := 2 ^ n)
    rw [Nat.pow_succ, ← Nat.mul_assoc, hsplit]
    omega
  have hne : k ≠ 0 := by
    rintro rfl
    omega
  exact (Nat.log2_eq_iff hne).2 ⟨hk, hk'⟩

/-- A real in the subnormal range of 32 bits is read back from its shifted significand. -/
theorem widen_shifted (s : Bool) {e m : Nat} (he : 874 ≤ e ∧ e ≤ 896)
    (hm : m < 0x10_0000_0000_0000) (hd : (0x10_0000_0000_0000 + m) % 2 ^ (926 - e) = 0) :
    (ofParts s 0 ((0x10_0000_0000_0000 + m) / 2 ^ (926 - e))).widen = ofParts s e m := by
  obtain ⟨k, hk⟩ := Nat.dvd_of_mod_eq_zero hd
  have hpos : 0 < 2 ^ (926 - e) := Nat.two_pow_pos _
  have hlog : k.log2 = e - 874 := by
    rw [log2_shifted (n := 926 - e) (by omega) (by omega) (by omega)]
    omega
  have hne : k ≠ 0 := by
    rintro rfl
    omega
  have hlt : k < 0x80_0000 := by
    rw [show (0x80_0000 : Nat) = 2 ^ 23 from rfl, ← Nat.log2_lt hne]
    omega
  have hsplit : 2 ^ (926 - e) * 2 ^ (e - 874) = 0x10_0000_0000_0000 := by
    rw [← Nat.pow_add, show 926 - e + (e - 874) = 52 by omega]
  rw [hk, Nat.mul_div_cancel_left _ hpos, widen_ofParts_subnormal hne hlt, hlog,
    show 874 + (e - 874) = e by omega, show 52 - (e - 874) = 926 - e by omega, Nat.sub_mul,
    Nat.mul_comm k, ← hk, Nat.mul_comm _ (2 ^ (926 - e)), hsplit, Nat.add_sub_cancel_left]

/-- **A real that takes 32 bits is read back as itself.** -/
theorem widen_of_narrow? {x : Binary64} {y : Binary32} (h : x.narrow? = some y) : y.widen = x := by
  have hm : x.fraction < 0x10_0000_0000_0000 := x.fraction_lt
  have hx := x.ofParts_parts
  simp only [narrow?] at h
  -- Infinities, zeros, normal and subnormal patterns of 32 bits, in the order of the definition.
  split at h
  · rename_i he
    split at h
    · rename_i hm₀
      obtain rfl := Option.some.inj h
      rw [widen_ofParts_infinite, ← he, ← hm₀, hx]
    · exact absurd h (by simp)
  split at h
  · rename_i he
    split at h
    · rename_i hm₀
      obtain rfl := Option.some.inj h
      rw [widen_ofParts_zero]
      rwa [he, hm₀] at hx
    · exact absurd h (by simp)
  split at h
  · split at h
    · rename_i he hd
      obtain rfl := Option.some.inj h
      rw [widen_ofParts_normal (by omega) (by omega) (by omega),
        Nat.sub_add_cancel (by omega), Nat.div_mul_cancel (Nat.dvd_of_mod_eq_zero hd), hx]
    · exact absurd h (by simp)
  split at h
  · split at h
    · rename_i he hd
      obtain rfl := Option.some.inj h
      exact (widen_shifted _ he hm hd).trans hx
    · exact absurd h (by simp)
  · exact absurd h (by simp)

/-- What is not a number takes 64 bits. -/
theorem narrow?_of_isNaN {x : Binary64} (h : x.isNaN = true) : x.narrow? = none := by
  simp only [isNaN, Bool.and_eq_true, beq_iff_eq, bne_iff_ne, ne_eq] at h
  simp only [narrow?]
  rw [if_pos h.1, if_neg h.2]

/-- The bits below the leading one, shifted up, and the implicit bit are the shifted fraction. -/
theorem implicit_add_shifted {m : Nat} (hm₀ : m ≠ 0) (hm : m < 0x80_0000) :
    0x10_0000_0000_0000 + (m - 2 ^ m.log2) * 2 ^ (52 - m.log2) = m * 2 ^ (52 - m.log2) := by
  have hlog : m.log2 ≤ 22 := Nat.le_of_lt_succ ((Nat.log2_lt hm₀).2 hm)
  have hsplit : 2 ^ m.log2 * 2 ^ (52 - m.log2) = 0x10_0000_0000_0000 := by
    rw [← Nat.pow_add, show m.log2 + (52 - m.log2) = 52 by omega]
  have := Nat.mul_le_mul_right (2 ^ (52 - m.log2)) (Nat.log2_self_le hm₀)
  rw [Nat.sub_mul, hsplit]
  omega

theorem mul_two_pow_lt {m : Nat} (hm₀ : m ≠ 0) (hm : m < 0x80_0000) :
    m * 2 ^ (52 - m.log2) < 0x20_0000_0000_0000 := by
  have hlog : m.log2 ≤ 22 := Nat.le_of_lt_succ ((Nat.log2_lt hm₀).2 hm)
  calc m * 2 ^ (52 - m.log2)
      < 2 ^ (m.log2 + 1) * 2 ^ (52 - m.log2) :=
        Nat.mul_lt_mul_of_pos_right Nat.lt_log2_self (Nat.two_pow_pos _)
    _ = 0x20_0000_0000_0000 := by
      rw [← Nat.pow_add, show m.log2 + 1 + (52 - m.log2) = 53 by omega]

/-- A subnormal significand shifted up to 53 bits is shifted down again. -/
theorem narrow?_shifted (s : Bool) {m : Nat} (hm₀ : m ≠ 0) (hm : m < 0x80_0000) :
    (ofParts s (874 + m.log2) ((m - 2 ^ m.log2) * 2 ^ (52 - m.log2))).narrow? =
      some (ofParts s 0 m) := by
  have hlog : m.log2 ≤ 22 := Nat.le_of_lt_succ ((Nat.log2_lt hm₀).2 hm)
  have hpos : 0 < 2 ^ (52 - m.log2) := Nat.two_pow_pos _
  have hfrac := implicit_add_shifted hm₀ hm
  have hhigh := mul_two_pow_lt hm₀ hm
  have he' : 874 + m.log2 < 0x800 := by omega
  have hm' : (m - 2 ^ m.log2) * 2 ^ (52 - m.log2) < 0x10_0000_0000_0000 := by omega
  have hfits : RealFormat.double.Fits _ _ := ⟨he', hm'⟩
  simp only [narrow?, exponent_ofParts hfits, fraction_ofParts hfits, negative_ofParts hfits,
    Nat.pow_eq, hfrac,
    show 926 - (874 + m.log2) = 52 - m.log2 by omega, Nat.mul_mod_left,
    Nat.mul_div_cancel _ hpos]
  rw [if_neg (by omega), if_neg (by omega), if_neg (by omega), if_pos (by omega), if_pos trivial]

/-- A normal pattern keeps its fraction bits, with zeros behind them. -/
theorem narrow?_normal (s : Bool) {e m : Nat} (he₀ : e ≠ 0) (he : e < 255) (hm : m < 0x80_0000) :
    (ofParts s (e + 896) (m * 0x2000_0000)).narrow? = some (ofParts s e m) := by
  have he' : e + 896 < 0x800 := by omega
  have hm' : m * 0x2000_0000 < 0x10_0000_0000_0000 := by omega
  have hfits : RealFormat.double.Fits _ _ := ⟨he', hm'⟩
  simp only [narrow?, exponent_ofParts hfits, fraction_ofParts hfits, negative_ofParts hfits]
  rw [if_neg (by omega), if_neg (by omega), if_pos (by omega), if_pos (by omega),
    Nat.add_sub_cancel, Nat.mul_div_cancel _ (by decide)]

/-- **What is a number, or infinite, takes 32 bits if 32 bits say it.** -/
theorem narrow?_widen {y : Binary32} (h : y.isNaN = false) : y.widen.narrow? = some y := by
  have he : y.exponent < 0x100 := y.exponent_lt
  have hm : y.fraction < 0x80_0000 := y.fraction_lt
  rw [← y.ofParts_parts]
  by_cases he₁ : y.exponent = 255
  · have hm₀ : y.fraction = 0 := by simpa [isNaN, he₁] using h
    rw [he₁, hm₀, widen_ofParts_infinite]
    cases y.negative <;> rfl
  by_cases he₀ : y.exponent = 0
  · by_cases hm₀ : y.fraction = 0
    · rw [he₀, hm₀, widen_ofParts_zero]
      cases y.negative <;> rfl
    · rw [he₀, widen_ofParts_subnormal hm₀ hm]
      exact narrow?_shifted _ hm₀ hm
  · rw [widen_ofParts_normal he₀ (by omega) hm]
    exact narrow?_normal _ he₀ (by omega) hm

/-- What is not a number stays so. -/
theorem isNaN_widen {y : Binary32} (h : y.isNaN = true) : y.widen.isNaN = true := by
  simp only [isNaN, Bool.and_eq_true, beq_iff_eq, bne_iff_ne, ne_eq] at h
  obtain ⟨he, hm⟩ := h
  have hm' : 0x8_0000_0000_0000 + y.fraction % 0x40_0000 * 0x2000_0000 < 0x10_0000_0000_0000 := by
    have : y.fraction % 0x40_0000 < 0x40_0000 := Nat.mod_lt _ (by decide)
    omega
  have hfits : RealFormat.double.Fits 2047 _ := ⟨by decide, hm'⟩
  simp only [widen, he, hm, if_true, if_false, isNaN, exponent_ofParts hfits,
    fraction_ofParts hfits]
  simp

end Binary

end WireTree
