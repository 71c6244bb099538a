import WireTree.Real.Binary

/-!
# Decimal fractions as reals

A decimal is a whole number times a power of ten, and it is made a real in steps that round one by
one.

* `roundHalfEven` rounds a quotient to the nearest whole number, and a half to the even neighbour.
* `nearestBits?` rounds a quotient to the nearest 64-bit pattern, and `Binary64.ofQuotient?` is that
  real. It fails where the nearest would be infinite. All arithmetic is on whole numbers and exact.
* `Binary64.ofDecimal?` rounds the whole number and the power of ten, and then their product or
  quotient. So the result need not be the real nearest to the decimal. The powers up to
  `10 ^ 308` are all there are, and a decimal with a lower exponent is divided several times.
-/

namespace WireTree

/-- The whole number nearest to `num / den`. A half goes to the even neighbour. -/
def roundHalfEven (num den : Nat) : Nat :=
  let q := num / den
  let r := num % den
  if 2 * r < den then q
  else if den < 2 * r then q + 1
  else q + q % 2

/-- `num * 2 ^ e / den`, rounded. -/
def roundScaled (num den : Nat) (e : Int) : Nat :=
  if 0 ≤ e then roundHalfEven (num * Nat.pow 2 e.toNat) den
  else roundHalfEven num (den * Nat.pow 2 (-e).toNat)

/-- Whether `num / den` is smaller than `2 ^ e`. -/
def belowTwoPow (num den : Nat) (e : Int) : Bool :=
  if 0 ≤ e then decide (num < den * Nat.pow 2 e.toNat)
  else decide (num * Nat.pow 2 (-e).toNat < den)

/-- The exponent of the last bit of `num / den` in 64 bits: the one that gives 53 bits, but not less
than that of the least subnormal number. -/
def lastBitExponent (num den : Nat) : Int :=
  let guess : Int := (num.log2 : Int) - (den.log2 : Int)
  let top := if belowTwoPow num den guess then guess - 1 else guess
  max (top - 52) (-1074)

/-- The 64-bit pattern nearest to the positive number `num / den`, if that is finite. The pattern
of a significand `m` with the last bit `q` is `m` plus as many units of the exponent field as `q`
lies above the least one, because the implicit bit adds the unit that is missing. -/
def nearestBits? (num den : Nat) : Option Nat :=
  let q := lastBitExponent num den
  let bits := (q + 1074).toNat * 0x10_0000_0000_0000 + roundScaled num den (-q)
  if bits < 0x7ff0_0000_0000_0000 then some bits else none

namespace Binary64

/-- The real nearest to `num / den`, which is not negative, if that is finite. -/
def ofQuotient? (num den : Nat) : Option Binary64 :=
  if num = 0 then some (.ofParts false 0 0)
  else (nearestBits? num den).map (.ofParts false 0)

/-- The real nearest to `num * 2 ^ e / den`, if that is finite. -/
def ofScaled? (num den : Nat) (e : Int) : Option Binary64 :=
  if 0 ≤ e then ofQuotient? (num * Nat.pow 2 e.toNat) den
  else ofQuotient? num (den * Nat.pow 2 (-e).toNat)

/-- The exponent of the last bit of a significand. -/
def unitExponent (x : Binary64) : Int :=
  (max x.exponent 1 : Nat) - 1075

/-- The real nearest to a power of ten. -/
def tenPow? (k : Nat) : Option Binary64 :=
  ofQuotient? (Nat.pow 10 k) 1

/-- The product with a power of ten, rounded. -/
def timesTenPow? (x : Binary64) (k : Nat) : Option Binary64 := do
  let pow ← tenPow? k
  ofScaled? (x.significand * pow.significand) 1 (unitExponent x + unitExponent pow)

/-- The quotient by a power of ten, rounded. -/
def overTenPow? (x : Binary64) (k : Nat) : Option Binary64 := do
  let pow ← tenPow? k
  ofScaled? x.significand pow.significand (unitExponent x - unitExponent pow)

/-- The quotient by `10 ^ (308 * n + k)`, rounded after each power. A zero is not divided. -/
def scaleDown? (k : Nat) : Nat → Binary64 → Option Binary64
  | 0, x => x.overTenPow? k
  | n + 1, x => if x.isZero then some x else x.overTenPow? 308 >>= scaleDown? k n

/-- The real that `m * 10 ^ e` is made, with a sign. Fails if that is infinite. -/
def ofDecimal? (negative : Bool) (m : Nat) (e : Int) : Option Binary64 := do
  let x ← ofQuotient? m 1
  let y ←
    if 308 < e then if m = 0 then some x else none
    else if 0 ≤ e then x.timesTenPow? e.toNat
    else
      let steps := ((-e).toNat - 1) / 308
      scaleDown? ((-e).toNat - 308 * steps) steps x
  return .ofParts negative y.exponent y.fraction

/-- Between the reals `9007199254740992` and `9007199254740994` there is no other, and the number in
the middle would be rounded to the first, which is even. As its tenfold is rounded before that is
divided, it becomes the second. -/
example : ofDecimal? false 90071992547409930 (-1) = some ⟨0x4340_0000_0000_0001⟩ := by
  decide +kernel

end Binary64

end WireTree
