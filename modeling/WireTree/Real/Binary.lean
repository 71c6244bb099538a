/-!
# Binary floating-point numbers

Reals are IEEE 754 bit patterns of 32 or 64 bits, taken apart with whole-number arithmetic.

* A pattern consists of a sign, a biased exponent and a fraction, as its `RealFormat` says. The
  exponent of all ones stands for the infinities (fraction zero) and for what is not a number; the
  exponent zero stands for the zeros and the subnormal numbers.
* `equals` is numeric equality: the two zeros are equal, and what is not a number differs from
  everything.
* `widen` gives the 64-bit pattern of the same number.
* `narrow?` gives the 32-bit pattern of exactly the same number, if there is one. What is
  not a number has none.

Results:
* `ofParts_parts`, `negative_ofParts` and their kin: a pattern is its parts, in either format.
* `equals_self_iff`, `equals_symm`, `equals_trans`: numeric equality is an equivalence of numbers.
-/

namespace WireTree

/-- How a pattern is divided. One bit is the sign, and the others are an exponent and a fraction. -/
structure RealFormat where
  /-- The number of bits. -/
  width : Nat
  /-- The number of exponents. -/
  exponents : Nat
  /-- The number of fractions. -/
  fractions : Nat
  split : 2 * exponents * fractions = Nat.pow 2 width

namespace RealFormat

/-- 32 bits, eight of them exponent and 23 fraction. -/
abbrev single : RealFormat :=
  ⟨32, 0x100, 0x80_0000, by decide⟩

/-- 64 bits, eleven of them exponent and 52 fraction. -/
abbrev double : RealFormat :=
  ⟨64, 0x800, 0x10_0000_0000_0000, by decide⟩

/-- The exponent and the fraction have room in their fields. -/
structure Fits (f : RealFormat) (exponent fraction : Nat) : Prop where
  exponent_lt : exponent < f.exponents
  fraction_lt : fraction < f.fractions

theorem exponents_pos (f : RealFormat) : 0 < f.exponents := by
  refine Nat.pos_of_ne_zero fun hzero => ?_
  have hsplit := f.split
  rw [hzero, Nat.mul_zero, Nat.zero_mul] at hsplit
  exact absurd hsplit.symm (Nat.ne_of_gt (Nat.two_pow_pos _))

theorem fractions_pos (f : RealFormat) : 0 < f.fractions := by
  refine Nat.pos_of_ne_zero fun hzero => ?_
  have hsplit := f.split
  rw [hzero, Nat.mul_zero] at hsplit
  exact absurd hsplit.symm (Nat.ne_of_gt (Nat.two_pow_pos _))

end RealFormat

/-- A pattern of the given format. -/
structure Binary (f : RealFormat) where
  bits : BitVec f.width
  deriving DecidableEq, Repr

/-- A 32-bit pattern. -/
abbrev Binary32 : Type :=
  Binary .single

/-- A 64-bit pattern. -/
abbrev Binary64 : Type :=
  Binary .double

namespace Binary

variable {f : RealFormat}

/-- Whether the sign bit is set. -/
def negative (x : Binary f) : Bool :=
  decide (f.exponents ≤ x.bits.toNat / f.fractions)

/-- The biased exponent. -/
def exponent (x : Binary f) : Nat :=
  x.bits.toNat / f.fractions % f.exponents

/-- The fraction bits. -/
def fraction (x : Binary f) : Nat :=
  x.bits.toNat % f.fractions

/-- The pattern with the given parts. A fraction that is too large for its field is carried into the
exponent. -/
def ofParts (negative : Bool) (exponent fraction : Nat) : Binary f :=
  ⟨BitVec.ofNat f.width
    (((if negative then f.exponents else 0) + exponent) * f.fractions + fraction)⟩

/-- Whether the pattern is not a number. -/
def isNaN (x : Binary f) : Bool :=
  x.exponent == f.exponents - 1 && x.fraction != 0

/-- Whether the pattern is neither infinite nor not a number. -/
def isFinite (x : Binary f) : Bool :=
  x.exponent != f.exponents - 1

/-- Whether the pattern is one of the two zeros. -/
def isZero (x : Binary f) : Bool :=
  x.exponent == 0 && x.fraction == 0

/-- The fraction with the implicit bit, which subnormal patterns lack. -/
def significand (x : Binary f) : Nat :=
  if x.exponent = 0 then x.fraction else f.fractions + x.fraction

/-- Numeric equality: the zeros are equal, and what is not a number differs from everything. -/
def equals (x y : Binary f) : Bool :=
  !x.isNaN && !y.isNaN && (x == y || (x.isZero && y.isZero))

/-! ## Parts of a pattern -/

section
variable (x : Binary f)

theorem exponent_lt : x.exponent < f.exponents :=
  Nat.mod_lt _ f.exponents_pos

theorem fraction_lt : x.fraction < f.fractions :=
  Nat.mod_lt _ f.fractions_pos

theorem significand_lt : x.significand < 2 * f.fractions := by
  have hm := x.fraction_lt
  unfold significand
  split <;> omega

theorem fractions_le_significand (h : x.exponent ≠ 0) : f.fractions ≤ x.significand := by
  rw [significand, if_neg h]
  exact Nat.le_add_right ..

/-- A pattern is put together again from its parts. -/
theorem ofParts_parts : ofParts x.negative x.exponent x.fraction = x := by
  obtain ⟨bits⟩ := x
  have hlt : bits.toNat / f.fractions < 2 * f.exponents := by
    rw [Nat.div_lt_iff_lt_mul f.fractions_pos, f.split]
    exact bits.isLt
  have hfield : (if f.exponents ≤ bits.toNat / f.fractions then f.exponents else 0) +
      bits.toNat / f.fractions % f.exponents = bits.toNat / f.fractions := by
    split
    · rename_i hle
      rw [Nat.mod_eq_sub_mod hle, Nat.mod_eq_of_lt (by omega), Nat.add_sub_cancel' hle]
    · rename_i hlt
      rw [Nat.mod_eq_of_lt (Nat.lt_of_not_le hlt), Nat.zero_add]
  simp only [ofParts, negative, exponent, fraction, decide_eq_true_eq, hfield,
    Nat.div_add_mod', BitVec.ofNat_toNat, BitVec.setWidth_eq]

end

/-- A fraction that is too large for its field carries into the exponent. -/
theorem ofParts_carry (s : Bool) (e q : Nat) :
    (ofParts s e q : Binary f) = ofParts s (e + q / f.fractions) (q % f.fractions) := by
  simp only [ofParts]
  rw [← Nat.add_assoc, Nat.add_mul _ (q / f.fractions), Nat.add_assoc, Nat.div_add_mod']

section
variable {s : Bool} {e m : Nat} (h : f.Fits e m)
include h

theorem toNat_ofParts :
    (ofParts s e m : Binary f).bits.toNat =
      ((if s then f.exponents else 0) + e) * f.fractions + m := by
  obtain ⟨he, hm⟩ := h
  have hfield : (if s then f.exponents else 0) + e + 1 ≤ 2 * f.exponents := by
    split <;> omega
  have hlt : ((if s then f.exponents else 0) + e + 1) * f.fractions ≤ 2 ^ f.width :=
    Nat.le_trans (Nat.mul_le_mul_right _ hfield) (Nat.le_of_eq f.split)
  rw [Nat.succ_mul] at hlt
  rw [ofParts, BitVec.toNat_ofNat]
  exact Nat.mod_eq_of_lt (by omega)

/-- The fields in front of the fraction. -/
theorem toNat_ofParts_div :
    (ofParts s e m : Binary f).bits.toNat / f.fractions = (if s then f.exponents else 0) + e := by
  rw [toNat_ofParts h, Nat.add_comm, Nat.add_mul_div_right _ _ f.fractions_pos,
    Nat.div_eq_of_lt h.fraction_lt, Nat.zero_add]

theorem negative_ofParts : (ofParts s e m : Binary f).negative = s := by
  have he := h.exponent_lt
  rw [negative, toNat_ofParts_div h]
  cases s
  · exact decide_eq_false (by simpa using he)
  · exact decide_eq_true (by simp)

theorem exponent_ofParts : (ofParts s e m : Binary f).exponent = e := by
  rw [exponent, toNat_ofParts_div h]
  cases s
  · simpa using Nat.mod_eq_of_lt h.exponent_lt
  · simpa using Nat.mod_eq_of_lt h.exponent_lt

theorem fraction_ofParts : (ofParts s e m : Binary f).fraction = m := by
  rw [fraction, toNat_ofParts h, Nat.mul_add_mod_self_right, Nat.mod_eq_of_lt h.fraction_lt]

end

/-! ## Numeric equality -/

theorem isNaN_eq_false_of_isFinite {x : Binary f} (h : x.isFinite = true) : x.isNaN = false := by
  simp only [isFinite, bne_iff_ne, ne_eq] at h
  simp [isNaN, h]

section
variable {x y z : Binary f}

theorem equals_iff : x.equals y = true ↔
    (x.isNaN = false ∧ y.isNaN = false) ∧ (x = y ∨ x.isZero = true ∧ y.isZero = true) := by
  simp [equals]

theorem equals_self_iff : x.equals x = true ↔ x.isNaN = false := by
  simp [equals]

theorem equals_symm (h : x.equals y = true) : y.equals x = true := by
  obtain ⟨⟨hx, hy⟩, hxy⟩ := equals_iff.1 h
  exact equals_iff.2 ⟨⟨hy, hx⟩, hxy.imp Eq.symm And.symm⟩

theorem equals_trans (hxy : x.equals y = true) (hyz : y.equals z = true) : x.equals z = true := by
  obtain ⟨⟨hx, -⟩, hxy⟩ := equals_iff.1 hxy
  obtain ⟨⟨-, hz⟩, hyz⟩ := equals_iff.1 hyz
  refine equals_iff.2 ⟨⟨hx, hz⟩, ?_⟩
  obtain rfl | ⟨hx, hy⟩ := hxy
  · exact hyz
  · obtain rfl | ⟨-, hz⟩ := hyz
    · exact .inr ⟨hx, hy⟩
    · exact .inr ⟨hx, hz⟩

end

/-! ## The two widths -/

/-- The 32-bit pattern of exactly the same number, if there is one.

* A zero or an infinity keeps its fraction of zero.
* From the least normal number of 32 bits on (biased exponent 897), the low 29 fraction bits have
  to be zero.
* Below that, the number has to be a multiple of the least subnormal number of 32 bits, which is
  `2 ^ 52` times the unit of the biased exponent 874. -/
def narrow? (x : Binary64) : Option Binary32 :=
  let e := x.exponent
  let m := x.fraction
  if e = 2047 then
    if m = 0 then some (.ofParts x.negative 255 0) else none
  else if e = 0 then
    if m = 0 then some (.ofParts x.negative 0 0) else none
  else if 897 ≤ e ∧ e ≤ 1150 then
    if m % 0x2000_0000 = 0 then some (.ofParts x.negative (e - 896) (m / 0x2000_0000)) else none
  else if 874 ≤ e ∧ e ≤ 896 then
    if (0x10_0000_0000_0000 + m) % Nat.pow 2 (926 - e) = 0 then
      some (.ofParts x.negative 0 ((0x10_0000_0000_0000 + m) / Nat.pow 2 (926 - e)))
    else none
  else none

/-- The 64-bit pattern of the same number. A subnormal fraction is shifted up until its leading one
becomes the implicit bit. What is not a number stays so: its fraction bits move to the top of the
wider fraction, the first of them set. -/
def widen (x : Binary32) : Binary64 :=
  let e := x.exponent
  let m := x.fraction
  if e = 255 then
    if m = 0 then .ofParts x.negative 2047 0
    else .ofParts x.negative 2047 (0x8_0000_0000_0000 + m % 0x40_0000 * 0x2000_0000)
  else if e = 0 then
    if m = 0 then .ofParts x.negative 0 0
    else .ofParts x.negative (874 + m.log2) ((m - Nat.pow 2 m.log2) * Nat.pow 2 (52 - m.log2))
  else .ofParts x.negative (e + 896) (m * 0x2000_0000)

end Binary

end WireTree
