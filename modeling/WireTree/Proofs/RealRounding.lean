import WireTree.Proofs.RealWidths
import WireTree.Real.Decimal
import Mathlib.Data.Nat.Dist

/-!
# Reals rounded to 32 bits

The nearest 32-bit pattern of a real, and the reals that rounding leaves as they are.

* `magnitude` is the size of a real as a whole number of least subnormals: of `2 ^ (-149)` for 32
  bits and of `2 ^ (-1074)` for 64. Infinity counts as the power of two behind the largest finite
  number. So `2 ^ 925` units of 64 bits make one of 32 bits.
* `nearest` rounds a significand to a whole number of the last bits that 32 bits have in
  its range. The exponent field counts how far the last bit lies above the least one. A significand
  that is rounded up to the next power of two carries into that field, and from the largest power
  into infinity.
* `RoundsTo x y` is what IEEE 754 asks of rounding to nearest: the sign is kept, no pattern
  is nearer, and of two that are equally near an even one is taken.

A real keeps its value in 32 bits exactly if rounding does not change it. This is a comparison of
numbers, and it cannot mistake one zero for the other because rounding keeps the sign.

Results:
* **`roundsTo_nearest`**: `nearest` rounds to nearest, ties to even.
* `nearest_widen`: what 32 bits say is rounded to itself.
* **`isSome_narrow?_iff`**: a real takes 32 bits exactly if it equals what it is rounded to.
* **`exists_widen_iff`**: these are the reals with at most 24 bits of significand in the range of
  exponents of 32 bits.
-/

namespace WireTree

/-! ## Rounding quotients -/

section
variable {num den k : Nat}

theorem roundHalfEven_mul_left (hden : 0 < den) : roundHalfEven (k * den) den = k := by
  unfold roundHalfEven
  rw [Nat.mul_div_cancel k hden, Nat.mul_mod_left]
  exact if_pos (by omega)

/-- A quotient is rounded to one of its two neighbours. -/
theorem roundHalfEven_eq_or (num den : Nat) :
    roundHalfEven num den = num / den ∨ roundHalfEven num den = num / den + 1 := by
  unfold roundHalfEven
  dsimp only
  split_ifs with hlow hhigh
  · exact .inl rfl
  · exact .inr rfl
  · rcases Nat.mod_two_eq_zero_or_one (num / den) with h | h
    · exact .inl (by rw [h]; rfl)
    · exact .inr (by rw [h])

/-- Rounding goes at most half a unit far, and half a unit only to an even number. -/
theorem two_mul_dist_roundHalfEven (num : Nat) (hden : 0 < den) :
    2 * Nat.dist num (roundHalfEven num den * den) ≤ den ∧
      (2 * Nat.dist num (roundHalfEven num den * den) = den → roundHalfEven num den % 2 = 0) := by
  have hlt : num % den < den := Nat.mod_lt num hden
  have hsplit : num / den * den + num % den = num := Nat.div_add_mod' num den
  unfold roundHalfEven Nat.dist
  dsimp only
  split_ifs with hlow hhigh
  · omega
  · rw [Nat.add_mul, Nat.one_mul]
    omega
  · rcases Nat.mod_two_eq_zero_or_one (num / den) with h | h
    · rw [h, Nat.add_zero]
      omega
    · rw [h, Nat.add_mul, Nat.one_mul]
      omega

/-- Every other whole number is at least half a unit away. -/
theorem le_two_mul_dist (hne : k ≠ roundHalfEven num den) (hden : 0 < den) :
    den ≤ 2 * Nat.dist num (k * den) := by
  obtain ⟨hnear, -⟩ := two_mul_dist_roundHalfEven num hden
  unfold Nat.dist at hnear ⊢
  rcases Nat.lt_or_gt_of_ne hne with hlt | hlt
  · have := Nat.mul_le_mul_right den hlt
    rw [Nat.succ_mul] at this
    omega
  · have := Nat.mul_le_mul_right den hlt
    rw [Nat.succ_mul] at this
    omega

/-- No whole number is nearer than the one that is rounded to. -/
theorem dist_roundHalfEven_le (k : Nat) (hden : 0 < den) :
    Nat.dist num (roundHalfEven num den * den) ≤ Nat.dist num (k * den) := by
  by_cases hk : k = roundHalfEven num den
  · rw [hk]
  · have hnear := (two_mul_dist_roundHalfEven num hden).1
    have hfar := le_two_mul_dist hk hden
    omega

theorem roundHalfEven_le (h : num ≤ k * den) (hden : 0 < den) : roundHalfEven num den ≤ k := by
  by_contra hlt
  have hmul := Nat.mul_le_mul_right den (Nat.lt_of_not_le hlt)
  have hne := Nat.ne_of_lt (Nat.lt_of_not_le hlt)
  have hfar := le_two_mul_dist hne hden
  obtain ⟨hnear, heven⟩ := two_mul_dist_roundHalfEven num hden
  rw [Nat.succ_mul] at hmul
  unfold Nat.dist at *
  omega

theorem le_roundHalfEven (h : k * den ≤ num) (hden : 0 < den) : k ≤ roundHalfEven num den := by
  have hdiv : k ≤ num / den := (Nat.le_div_iff_mul_le hden).2 h
  rcases roundHalfEven_eq_or num den with h | h <;> omega

end

/-! ## The size of a real -/

theorem two_pow_mul_two_pow {a b c d : Nat} (h : a + b = c + d) :
    2 ^ a * 2 ^ b = 2 ^ c * 2 ^ d := by
  rw [← Nat.pow_add, ← Nat.pow_add, h]

theorem two_pow_mul_mul {a b c d unit : Nat} (hunit : unit = 2 ^ d) (h : a + b = c + d) (n : Nat) :
    2 ^ a * 2 ^ (b + n) = 2 ^ c * (2 ^ n * unit) := by
  rw [Nat.pow_add, ← Nat.mul_assoc, two_pow_mul_two_pow h, hunit, Nat.mul_assoc,
    Nat.mul_comm (2 ^ d)]

/-- The least subnormal of 32 bits as a number of those of 64. -/
def singleUnit : Nat :=
  2 ^ 925

theorem exists_singleUnit_eq : ∃ d, d = 925 ∧ singleUnit = 2 ^ d :=
  ⟨925, rfl, rfl⟩

theorem singleUnit_pos : 0 < singleUnit := by
  obtain ⟨d, -, hunit⟩ := exists_singleUnit_eq
  rw [hunit]
  exact Nat.two_pow_pos d

namespace Binary

section
variable {f : RealFormat}

/-- The size of a real as a number of least subnormals. -/
def magnitude (x : Binary f) : Nat :=
  x.significand * 2 ^ (x.exponent - 1)

theorem magnitude_ofParts {s : Bool} {e m : Nat} (h : f.Fits e m) :
    (ofParts s e m : Binary f).magnitude =
      (if e = 0 then m else f.fractions + m) * 2 ^ (e - 1) := by
  rw [magnitude, significand, exponent_ofParts h, fraction_ofParts h]

/-! ## Significands that carry -/

/-- A significand over the implicit bit of the exponent below. -/
theorem ofParts_significand (x : Binary f) :
    ofParts x.negative (x.exponent - 1) x.significand = x := by
  refine Eq.trans ?_ x.ofParts_parts
  unfold significand
  split_ifs with he
  · rw [he]
  · rw [ofParts_carry, Nat.add_div_left _ f.fractions_pos, Nat.div_eq_of_lt x.fraction_lt,
      Nat.add_mod_left, Nat.mod_eq_of_lt x.fraction_lt, Nat.sub_add_cancel (Nat.pos_of_ne_zero he)]

end

section
variable {s : Bool} {unit q : Nat} (hunit : unit < 254) (hq : q ≤ 2 ^ 24)
include hunit hq

theorem fits_carry : RealFormat.single.Fits (unit + q / 0x80_0000) (q % 0x80_0000) where
  exponent_lt := by
    show _ < 0x100
    omega
  fraction_lt := Nat.mod_lt _ (by decide)

theorem exponent_ofParts_carry :
    (ofParts s unit q : Binary32).exponent = unit + q / 0x80_0000 := by
  rw [ofParts_carry, exponent_ofParts (fits_carry hunit hq)]

theorem fraction_ofParts_carry : (ofParts s unit q : Binary32).fraction = q % 0x80_0000 := by
  rw [ofParts_carry, fraction_ofParts (fits_carry hunit hq)]

theorem negative_ofParts_carry : (ofParts s unit q : Binary32).negative = s := by
  rw [ofParts_carry, negative_ofParts (fits_carry hunit hq)]

theorem isNaN_ofParts_carry : (ofParts s unit q : Binary32).isNaN = false := by
  simp only [isNaN, exponent_ofParts_carry hunit hq, fraction_ofParts_carry hunit hq,
    Bool.and_eq_false_iff, beq_eq_false_iff_ne, bne_eq_false_iff_eq]
  omega

/-- A whole number of last bits, normal or in the least range, has the size it says. -/
theorem magnitude_ofParts_carry (hnormal : unit = 0 ∨ 2 ^ 23 ≤ q) :
    (ofParts s unit q : Binary32).magnitude = q * 2 ^ unit := by
  rw [ofParts_carry, magnitude_ofParts (fits_carry hunit hq)]
  show (if unit + q / 0x80_0000 = 0 then q % 0x80_0000 else 0x80_0000 + q % 0x80_0000) *
    2 ^ (unit + q / 0x80_0000 - 1) = _
  rcases Nat.lt_or_ge q 0x80_0000 with hlow | hlow
  · obtain rfl : unit = 0 := by omega
    rw [Nat.div_eq_of_lt hlow, Nat.mod_eq_of_lt hlow]
    rfl
  rcases Nat.lt_or_eq_of_le hq with hhigh | rfl
  · have hdiv : q / 0x80_0000 = 1 := by omega
    have hmod : 0x80_0000 + q % 0x80_0000 = q := by omega
    rw [hdiv, if_neg (Nat.succ_ne_zero unit), hmod, Nat.add_sub_cancel]
  · rw [if_neg (by omega), show unit + 2 ^ 24 / 0x80_0000 - 1 = unit + 1 by omega, Nat.pow_succ']
    omega

end

theorem isNaN_infinite (s : Bool) : (ofParts s 255 0 : Binary32).isNaN = false := by
  cases s <;> rfl

/-- Infinity counts as the power of two behind the largest finite number. -/
theorem magnitude_infinite (s : Bool) :
    (ofParts s 255 0 : Binary32).magnitude = 2 ^ 23 * 2 ^ 254 := by
  cases s <;> rfl

/-- Nothing is larger than infinity. -/
theorem magnitude_le {x : Binary32} (h : x.isNaN = false) : x.magnitude ≤ 2 ^ 23 * 2 ^ 254 := by
  have he : x.exponent < 0x100 := x.exponent_lt
  by_cases htop : x.exponent = 255
  · have hm : x.fraction = 0 := by simpa [isNaN, htop] using h
    unfold magnitude significand
    rw [htop, hm]
    exact Nat.le_refl _
  · have hpow : 2 ^ (x.exponent - 1) ≤ 2 ^ 253 := Nat.pow_le_pow_right Nat.two_pos (by omega)
    calc x.significand * 2 ^ (x.exponent - 1)
        ≤ 2 ^ 24 * 2 ^ 253 := Nat.mul_le_mul (Nat.le_of_lt x.significand_lt) hpow
      _ = 2 ^ 23 * 2 ^ 254 := two_pow_mul_two_pow rfl

/-- A real is a whole number of given last bits, unless it is smaller than a normal one. -/
theorem magnitude_eq_mul_or_lt (x : Binary32) (unit : Nat) :
    (∃ k, x.magnitude = k * 2 ^ unit) ∨ unit ≠ 0 ∧ x.magnitude < 2 ^ 23 * 2 ^ unit := by
  unfold magnitude
  by_cases hunit : unit ≤ x.exponent - 1
  · refine .inl ⟨x.significand * 2 ^ (x.exponent - 1 - unit), ?_⟩
    rw [Nat.mul_assoc, ← Nat.pow_add, Nat.sub_add_cancel hunit]
  · have hpow : 2 ^ (x.exponent - 1 + 1) ≤ 2 ^ unit := Nat.pow_le_pow_right Nat.two_pos (by omega)
    refine .inr ⟨by omega, ?_⟩
    calc x.significand * 2 ^ (x.exponent - 1)
        < 2 ^ 24 * 2 ^ (x.exponent - 1) :=
          Nat.mul_lt_mul_of_pos_right x.significand_lt (Nat.two_pow_pos _)
      _ = 2 ^ 23 * 2 ^ (x.exponent - 1 + 1) := two_pow_mul_two_pow (by omega)
      _ ≤ 2 ^ 23 * 2 ^ unit := Nat.mul_le_mul_left _ hpow

/-! ## Rounding to 32 bits -/

/-- How many units of the exponent field the last bit of 32 bits lies above the least one, in the
range of a real. -/
def roundingUnit (x : Binary64) : Nat :=
  x.exponent - 897

/-- The last bit of 32 bits in the range of a real, in units of `2 ^ (-1074)`. -/
def lastBit (x : Binary64) : Nat :=
  2 ^ x.roundingUnit * singleUnit

/-- The nearest 32-bit pattern. What is not a number stays so: the top bits of its fraction are
kept, the first of them set. -/
def nearest (x : Binary64) : Binary32 :=
  if x.isNaN then .ofParts x.negative 255 (0x40_0000 + x.fraction / 0x2000_0000 % 0x40_0000)
  else if x.roundingUnit < 254 then
    .ofParts x.negative x.roundingUnit (roundHalfEven x.magnitude x.lastBit)
  else .ofParts x.negative 255 0

/-- How far a 32-bit pattern is from a real, in units of `2 ^ (-1074)`. -/
def distance (x : Binary64) (y : Binary32) : Nat :=
  Nat.dist x.magnitude (y.magnitude * singleUnit)

/-- The pattern `y` is what rounding to nearest makes of `x`, with ties to even. -/
structure RoundsTo (x : Binary64) (y : Binary32) : Prop where
  number : y.isNaN = false
  sign : y.negative = x.negative
  nearest : ∀ z : Binary32, z.isNaN = false → x.distance y ≤ x.distance z
  even : ∀ z : Binary32, z.isNaN = false → x.distance z = x.distance y →
    z.magnitude = y.magnitude ∨ y.fraction % 2 = 0

theorem lastBit_pos (x : Binary64) : 0 < x.lastBit :=
  Nat.mul_pos (Nat.two_pow_pos _) singleUnit_pos

/-- A real has at most 24 bits in front of the last bit of its range. -/
theorem magnitude_lt (x : Binary64) : x.magnitude < 2 ^ 24 * x.lastBit := by
  obtain ⟨d, hd, hunit⟩ := exists_singleUnit_eq
  have hpow : 2 ^ (x.exponent - 1) ≤ 2 ^ (896 + x.roundingUnit) :=
    Nat.pow_le_pow_right Nat.two_pos (by unfold roundingUnit; omega)
  calc x.significand * 2 ^ (x.exponent - 1)
      < 2 ^ 53 * 2 ^ (x.exponent - 1) :=
        Nat.mul_lt_mul_of_pos_right x.significand_lt (Nat.two_pow_pos _)
    _ ≤ 2 ^ 53 * 2 ^ (896 + x.roundingUnit) := Nat.mul_le_mul_left _ hpow
    _ = 2 ^ 24 * x.lastBit := two_pow_mul_mul hunit (by omega) _

/-- Above the least range it has exactly 24. -/
theorem le_magnitude (x : Binary64) :
    x.roundingUnit = 0 ∨ 2 ^ 23 * x.lastBit ≤ x.magnitude := by
  obtain ⟨d, hd, hunit⟩ := exists_singleUnit_eq
  refine or_iff_not_imp_left.2 fun hne => ?_
  have he : x.exponent - 1 = 896 + x.roundingUnit := by
    unfold roundingUnit at hne ⊢
    omega
  have hlow : 2 ^ 52 ≤ x.significand := x.fractions_le_significand (by omega)
  calc 2 ^ 23 * x.lastBit
      = 2 ^ 52 * 2 ^ (896 + x.roundingUnit) := (two_pow_mul_mul hunit (by omega) _).symm
    _ ≤ x.significand * 2 ^ (x.exponent - 1) := by
      rw [he]
      exact Nat.mul_le_mul_right _ hlow

/-- The rounded significand has 24 bits, or it is the next power of two. -/
theorem roundedSignificand_bounds (x : Binary64) :
    let q := roundHalfEven x.magnitude x.lastBit
    q ≤ 2 ^ 24 ∧ (x.roundingUnit = 0 ∨ 2 ^ 23 ≤ q) :=
  ⟨roundHalfEven_le (Nat.le_of_lt x.magnitude_lt) x.lastBit_pos,
    x.le_magnitude.imp_right fun h => le_roundHalfEven h x.lastBit_pos⟩

/-- Every pattern is a whole number of the last bits of the range, or it is farther away than the
least normal number with these last bits. -/
theorem distance_eq_or_lt (x : Binary64) (z : Binary32) :
    (∃ k, z.magnitude = k * 2 ^ x.roundingUnit ∧
      x.distance z = Nat.dist x.magnitude (k * x.lastBit)) ∨
    Nat.dist x.magnitude (2 ^ 23 * x.lastBit) < x.distance z := by
  unfold distance lastBit
  obtain ⟨k, hk⟩ | ⟨hne, hlt⟩ := z.magnitude_eq_mul_or_lt x.roundingUnit
  · exact .inl ⟨k, hk, by rw [hk, Nat.mul_assoc]⟩
  · have hmid := x.le_magnitude.resolve_left hne
    have hscaled := Nat.mul_lt_mul_of_pos_right hlt singleUnit_pos
    rw [Nat.mul_assoc] at hscaled
    refine .inr ?_
    unfold lastBit at hmid
    unfold Nat.dist
    omega

/-- In the range of 32 bits a significand is rounded to a whole number of last bits. -/
theorem roundsTo_ofParts {x : Binary64} (hunit : x.roundingUnit < 254) :
    RoundsTo x (.ofParts x.negative x.roundingUnit (roundHalfEven x.magnitude x.lastBit)) := by
  obtain ⟨hq, hnormal⟩ := x.roundedSignificand_bounds
  have hmagnitude := magnitude_ofParts_carry (s := x.negative) hunit hq hnormal
  have hdistance : x.distance (.ofParts x.negative x.roundingUnit
      (roundHalfEven x.magnitude x.lastBit)) =
        Nat.dist x.magnitude (roundHalfEven x.magnitude x.lastBit * x.lastBit) := by
    rw [distance, hmagnitude, Nat.mul_assoc, ← lastBit]
  refine ⟨isNaN_ofParts_carry hunit hq, negative_ofParts_carry hunit hq,
    fun z _ => ?_, fun z _ heq => ?_⟩
  · rw [hdistance]
    obtain ⟨k, -, hz⟩ | hlt := x.distance_eq_or_lt z
    · rw [hz]
      exact dist_roundHalfEven_le k x.lastBit_pos
    · exact Nat.le_of_lt (Nat.lt_of_le_of_lt (dist_roundHalfEven_le _ x.lastBit_pos) hlt)
  · rw [hdistance] at heq
    obtain ⟨k, hk, hz⟩ | hlt := x.distance_eq_or_lt z
    · by_cases hkq : k = roundHalfEven x.magnitude x.lastBit
      · exact .inl (by rw [hk, hkq, hmagnitude])
      · -- Two whole numbers are equally near only half a unit away from both.
        have hfar := le_two_mul_dist hkq x.lastBit_pos
        obtain ⟨hnear, heven⟩ := two_mul_dist_roundHalfEven x.magnitude x.lastBit_pos
        have hparity := heven (by omega)
        rw [fraction_ofParts_carry hunit hq]
        exact .inr (by omega)
    · exact absurd (heq ▸ hlt) (Nat.not_lt_of_le (dist_roundHalfEven_le _ x.lastBit_pos))

/-- Above the range of 32 bits everything is rounded to infinity. -/
theorem roundsTo_infinite {x : Binary64} (hunit : ¬ x.roundingUnit < 254) :
    RoundsTo x (.ofParts x.negative 255 0) := by
  have hlarge : 2 ^ 23 * 2 ^ 254 * singleUnit ≤ x.magnitude := by
    have hpow : 2 ^ 254 ≤ 2 ^ x.roundingUnit := Nat.pow_le_pow_right Nat.two_pos (by omega)
    refine Nat.le_trans ?_ (x.le_magnitude.resolve_left (by omega))
    rw [Nat.mul_assoc]
    exact Nat.mul_le_mul_left _ (Nat.mul_le_mul_right _ hpow)
  have hfits : RealFormat.single.Fits 255 0 := ⟨by decide, by decide⟩
  refine ⟨isNaN_infinite _, negative_ofParts hfits, fun z hz => ?_, fun z _ _ => .inr ?_⟩
  · have hle := Nat.mul_le_mul_right singleUnit (magnitude_le hz)
    unfold distance Nat.dist
    rw [magnitude_infinite]
    omega
  · rw [fraction_ofParts hfits]

/-- **Rounding finds a nearest pattern, and an even one of two that are equally near.** -/
theorem roundsTo_nearest {x : Binary64} (h : x.isNaN = false) : RoundsTo x x.nearest := by
  unfold nearest
  rw [h, if_neg Bool.false_ne_true]
  split_ifs with hunit
  · exact roundsTo_ofParts hunit
  · exact roundsTo_infinite hunit

/-! ## What 32 bits say -/

theorem roundingUnit_ofParts {s : Bool} {e m : Nat} (h : RealFormat.double.Fits e m) :
    (ofParts s e m).roundingUnit = e - 897 :=
  congrArg (· - 897) (exponent_ofParts h)

/-- A real of 64 bits says what 32 bits say: the sign is the same, and so is the size. -/
structure Says (x : Binary64) (y : Binary32) : Prop where
  sign : x.negative = y.negative
  unit : x.roundingUnit = y.exponent - 1
  magnitude : x.magnitude = y.magnitude * singleUnit

theorem says_zero (s : Bool) : (ofParts s 0 0).widen.Says (ofParts s 0 0) := by
  rw [widen_ofParts_zero]
  refine ⟨?_, ?_, ?_⟩
  · cases s <;> rfl
  · cases s <;> rfl
  · have hwide : RealFormat.double.Fits 0 0 := ⟨by decide, by decide⟩
    have hfits : RealFormat.single.Fits 0 0 := ⟨by decide, by decide⟩
    rw [magnitude_ofParts hwide, magnitude_ofParts hfits, if_pos rfl, if_pos rfl, Nat.zero_mul,
      Nat.zero_mul]

/-- Widening keeps the size of a normal pattern. -/
theorem says_normal (s : Bool) {e m : Nat} (he₀ : e ≠ 0) (he : e < 255) (hm : m < 0x80_0000) :
    (ofParts s e m).widen.Says (ofParts s e m) := by
  obtain ⟨d, hd, hunit⟩ := exists_singleUnit_eq
  have hexponent : e + 896 < 0x800 := by omega
  have hfraction : m * 0x2000_0000 < 0x10_0000_0000_0000 := by omega
  have hwide : RealFormat.double.Fits _ _ := ⟨hexponent, hfraction⟩
  have hfits : RealFormat.single.Fits e m := ⟨Nat.lt_succ_of_lt he, hm⟩
  rw [widen_ofParts_normal he₀ he hm]
  refine ⟨?_, ?_, ?_⟩
  · rw [negative_ofParts hwide, negative_ofParts hfits]
  · rw [roundingUnit_ofParts hwide, exponent_ofParts hfits]
    omega
  · have hshift : 0x10_0000_0000_0000 + m * 0x2000_0000 = (0x80_0000 + m) * 2 ^ 29 := by omega
    rw [magnitude_ofParts hwide, magnitude_ofParts hfits, if_neg (Nat.succ_ne_zero _),
      if_neg he₀, hshift, hunit, Nat.mul_assoc, Nat.mul_assoc,
      two_pow_mul_two_pow (c := e - 1) (d := d) (by omega)]

/-- Widening keeps the size of a subnormal pattern, whose leading one it shifts up. -/
theorem says_subnormal (s : Bool) {m : Nat} (hm₀ : m ≠ 0) (hm : m < 0x80_0000) :
    (ofParts s 0 m).widen.Says (ofParts s 0 m) := by
  obtain ⟨d, hd, hunit⟩ := exists_singleUnit_eq
  have hlog : m.log2 ≤ 22 := Nat.le_of_lt_succ ((Nat.log2_lt hm₀).2 hm)
  have hsum := implicit_add_shifted hm₀ hm
  have hlt := mul_two_pow_lt hm₀ hm
  have hexponent : 874 + m.log2 < 0x800 := by omega
  have hfraction : (m - 2 ^ m.log2) * 2 ^ (52 - m.log2) < 0x10_0000_0000_0000 := by omega
  have hwide : RealFormat.double.Fits _ _ := ⟨hexponent, hfraction⟩
  have hfits : RealFormat.single.Fits 0 m := ⟨by decide, hm⟩
  rw [widen_ofParts_subnormal hm₀ hm]
  refine ⟨?_, ?_, ?_⟩
  · rw [negative_ofParts hwide, negative_ofParts hfits]
  · rw [roundingUnit_ofParts hwide, exponent_ofParts hfits]
    omega
  · rw [magnitude_ofParts hwide, magnitude_ofParts hfits, if_neg (by omega), if_pos rfl, hsum,
      hunit, Nat.mul_assoc, Nat.mul_assoc,
      two_pow_mul_two_pow (c := 0 - 1) (d := d) (by omega)]

/-- **Widening keeps what a pattern says.** -/
theorem says_widen {y : Binary32} (he : y.exponent ≠ 255) : y.widen.Says y := by
  have hlt : y.exponent < 0x100 := y.exponent_lt
  rw [← y.ofParts_parts]
  by_cases he₀ : y.exponent = 0
  · by_cases hm₀ : y.fraction = 0
    · rw [he₀, hm₀]
      exact says_zero _
    · rw [he₀]
      exact says_subnormal _ hm₀ y.fraction_lt
  · exact says_normal _ he₀ (by omega) y.fraction_lt

/-- What is not finite is widened to what is not finite. -/
theorem exponent_widen_of_eq {y : Binary32} (he : y.exponent = 255) : y.widen.exponent = 2047 := by
  have hlt : y.fraction % 0x40_0000 < 0x40_0000 := Nat.mod_lt _ (by decide)
  unfold widen
  rw [he]
  dsimp only
  rw [if_pos rfl]
  split_ifs
  · exact exponent_ofParts ⟨by decide, by decide⟩
  · refine exponent_ofParts ⟨by decide, ?_⟩
    show _ < 0x10_0000_0000_0000
    omega

theorem isNaN_widen_eq_false {y : Binary32} (h : y.isNaN = false) : y.widen.isNaN = false := by
  by_contra hnan
  have hnone := narrow?_of_isNaN (Bool.eq_true_of_not_eq_false hnan)
  rw [narrow?_widen h] at hnone
  cases hnone

theorem nearest_infinite (s : Bool) : (ofParts s 2047 0).nearest = ofParts s 255 0 := by
  have hwide : RealFormat.double.Fits 2047 0 := ⟨by decide, by decide⟩
  have hnan : (ofParts s 2047 0 : Binary64).isNaN = false := by cases s <;> rfl
  unfold nearest
  rw [hnan, if_neg Bool.false_ne_true, negative_ofParts hwide, roundingUnit_ofParts hwide,
    if_neg (by decide)]

/-- **What 32 bits say is rounded to itself.** -/
theorem nearest_widen {y : Binary32} (h : y.isNaN = false) : y.widen.nearest = y := by
  have hlt : y.exponent < 0x100 := y.exponent_lt
  by_cases he : y.exponent = 255
  · have hm : y.fraction = 0 := by simpa [isNaN, he] using h
    rw [← y.ofParts_parts, he, hm, widen_ofParts_infinite, nearest_infinite]
  · have hsize := says_widen he
    have hbits : y.widen.magnitude = y.significand * y.widen.lastBit := by
      rw [hsize.magnitude, magnitude, lastBit, hsize.unit, Nat.mul_assoc]
    unfold nearest
    rw [isNaN_widen_eq_false h, if_neg Bool.false_ne_true, if_pos (by rw [hsize.unit]; omega),
      hbits, roundHalfEven_mul_left y.widen.lastBit_pos, hsize.unit, hsize.sign]
    exact y.ofParts_significand

variable {x : Binary64} {y : Binary32}

theorem narrow?_eq_some_iff : x.narrow? = some y ↔ y.isNaN = false ∧ y.widen = x := by
  constructor
  · intro h
    have hx := widen_of_narrow? h
    refine ⟨Bool.eq_false_of_not_eq_true fun hnan => ?_, hx⟩
    have hnone := narrow?_of_isNaN (isNaN_widen hnan)
    rw [hx, h] at hnone
    cases hnone
  · rintro ⟨hnan, rfl⟩
    exact narrow?_widen hnan

theorem narrow?_of_isZero (h : x.isZero = true) : x.narrow? = some (.ofParts x.negative 0 0) := by
  simp only [isZero, Bool.and_eq_true, beq_iff_eq] at h
  simp only [narrow?]
  rw [h.1, h.2]
  rfl

/-- **A real takes 32 bits exactly if it equals what it is rounded to**, as numbers go. -/
theorem isSome_narrow?_iff : x.narrow?.isSome = true ↔ x.nearest.widen.equals x = true := by
  constructor
  · intro h
    obtain ⟨y, hy⟩ := Option.isSome_iff_exists.1 h
    obtain ⟨hnan, rfl⟩ := narrow?_eq_some_iff.1 hy
    rw [nearest_widen hnan]
    exact equals_self_iff.2 (isNaN_widen_eq_false hnan)
  · intro h
    obtain ⟨⟨-, hnan⟩, heq | ⟨-, hzero⟩⟩ := equals_iff.1 h
    · rw [narrow?_eq_some_iff.2 ⟨(roundsTo_nearest hnan).number, heq⟩]
      rfl
    · rw [narrow?_of_isZero hzero]
      rfl

/-- A larger exponent makes a larger real. -/
theorem magnitude_lt_magnitude {x x' : Binary64} (h : x.exponent < x'.exponent) :
    x.magnitude < x'.magnitude := by
  have hm := x.fraction_lt
  have hlow : 2 ^ 52 ≤ x'.significand := x'.fractions_le_significand (by omega)
  have hbelow : x.magnitude < 2 ^ 52 * 2 ^ (x'.exponent - 1) := by
    by_cases he : x.exponent = 0
    · have hmag : x.magnitude = x.fraction := by
        rw [magnitude, significand, if_pos he, he]
        exact Nat.mul_one _
      rw [hmag]
      exact Nat.lt_of_lt_of_le hm (Nat.le_mul_of_pos_right _ (Nat.two_pow_pos _))
    · have hpow : 2 ^ x.exponent ≤ 2 ^ (x'.exponent - 1) :=
        Nat.pow_le_pow_right Nat.two_pos (by omega)
      calc x.significand * 2 ^ (x.exponent - 1)
          < 2 ^ 53 * 2 ^ (x.exponent - 1) :=
            Nat.mul_lt_mul_of_pos_right x.significand_lt (Nat.two_pow_pos _)
        _ = 2 ^ 52 * 2 ^ x.exponent := two_pow_mul_two_pow (by omega)
        _ ≤ 2 ^ 52 * 2 ^ (x'.exponent - 1) := Nat.mul_le_mul_left _ hpow
  exact Nat.lt_of_lt_of_le hbelow (Nat.mul_le_mul_right _ hlow)

/-- The sign and the size determine a pattern. -/
theorem eq_of_magnitude_eq {x x' : Binary64} (hsign : x.negative = x'.negative)
    (h : x.magnitude = x'.magnitude) : x = x' := by
  have he : x.exponent = x'.exponent := by
    rcases Nat.lt_trichotomy x.exponent x'.exponent with hlt | heq | hlt
    · exact absurd h (Nat.ne_of_lt (magnitude_lt_magnitude hlt))
    · exact heq
    · exact absurd h.symm (Nat.ne_of_lt (magnitude_lt_magnitude hlt))
  have hm : x.fraction = x'.fraction := by
    unfold magnitude at h
    rw [he] at h
    have hsig := Nat.eq_of_mul_eq_mul_right (Nat.two_pow_pos _) h
    unfold significand at hsig
    rw [he] at hsig
    split_ifs at hsig <;> omega
  rw [← x.ofParts_parts, ← x'.ofParts_parts, hsign, he, hm]

/-- A real that is a whole number of the last bits of its range is the widened rounded one. -/
theorem widen_nearest {n : Nat} (hunit : x.roundingUnit < 254) (hnan : x.isNaN = false)
    (hn : x.magnitude = n * x.lastBit) : x.nearest.widen = x := by
  have hrounded : roundHalfEven x.magnitude x.lastBit = n := by
    rw [hn, roundHalfEven_mul_left x.lastBit_pos]
  have hnearest : x.nearest = .ofParts x.negative x.roundingUnit n := by
    unfold nearest
    rw [hnan, if_neg Bool.false_ne_true, if_pos hunit, hrounded]
  have hnormal := x.roundedSignificand_bounds.2
  rw [hrounded] at hnormal
  have hlt : n < 2 ^ 24 := by
    have h := x.magnitude_lt
    rw [hn] at h
    exact Nat.lt_of_mul_lt_mul_right h
  have hfinite : (ofParts x.negative x.roundingUnit n : Binary32).exponent ≠ 255 := by
    rw [exponent_ofParts_carry hunit (Nat.le_of_lt hlt)]
    omega
  have hsize := says_widen hfinite
  rw [hnearest]
  refine eq_of_magnitude_eq ?_ ?_
  · rw [hsize.sign, negative_ofParts_carry hunit (Nat.le_of_lt hlt)]
  · rw [hsize.magnitude, magnitude_ofParts_carry hunit (Nat.le_of_lt hlt) hnormal, Nat.mul_assoc,
      ← lastBit, hn]

/-- **Which finite reals take 32 bits**: those with at most 24 bits of significand in front of a
last bit from `2 ^ (-149)` up to `2 ^ 104`. -/
theorem exists_widen_iff (hx : x.isFinite = true) : (∃ y : Binary32, y.widen = x) ↔
    ∃ k j, k < 2 ^ 24 ∧ j ≤ 253 ∧ x.magnitude = k * (2 ^ j * singleUnit) := by
  constructor
  · rintro ⟨y, rfl⟩
    have hlt : y.exponent < 0x100 := y.exponent_lt
    have he : y.exponent ≠ 255 := by
      intro he
      rw [isFinite, exponent_widen_of_eq he] at hx
      cases hx
    refine ⟨y.significand, y.exponent - 1, y.significand_lt, by omega, ?_⟩
    rw [(says_widen he).magnitude, magnitude, Nat.mul_assoc]
  · rintro ⟨k, j, hk, hj, hmag⟩
    -- With more bits in front of its last bit than `k` has, the real would be larger.
    have hle : x.roundingUnit ≤ j := by
      by_contra hlt
      have hlow := x.le_magnitude.resolve_left (by omega)
      have hpow : 2 ^ (j + 1) ≤ 2 ^ x.roundingUnit := Nat.pow_le_pow_right Nat.two_pos (by omega)
      have hsmall : x.magnitude < 2 ^ 23 * x.lastBit := by
        calc x.magnitude
            = k * (2 ^ j * singleUnit) := hmag
          _ < 2 ^ 24 * (2 ^ j * singleUnit) :=
            Nat.mul_lt_mul_of_pos_right hk (Nat.mul_pos (Nat.two_pow_pos j) singleUnit_pos)
          _ = 2 ^ 23 * (2 ^ (j + 1) * singleUnit) := by
            rw [← Nat.mul_assoc, ← Nat.mul_assoc,
              two_pow_mul_two_pow (c := 23) (d := j + 1) (by omega)]
          _ ≤ 2 ^ 23 * x.lastBit := Nat.mul_le_mul_left _ (Nat.mul_le_mul_right _ hpow)
      omega
    have hbits : x.magnitude = k * 2 ^ (j - x.roundingUnit) * x.lastBit := by
      rw [hmag, lastBit, Nat.mul_assoc k, ← Nat.mul_assoc (2 ^ _), ← Nat.pow_add,
        Nat.sub_add_cancel hle]
    exact ⟨x.nearest, widen_nearest (by omega) (isNaN_eq_false_of_isFinite hx) hbits⟩

end Binary

end WireTree
