import WireTree.Real.Binary

/-!
# Shortest decimals

The fewest decimal digits that read back as a given real.

* `Reading` is the interval of numbers that round to a positive real: half a unit of its last bit
  to each side, but only a quarter below a power of two. The ends belong to it if the significand
  is even. Numbers in it are fractions over one denominator.
* A grid of `k` digits consists of the multiples of one power of ten. The value has two neighbours
  on it, and if any point of the grid lies in the interval, one of these does.
* `Shortest.find` goes from the grid of one digit to that of 17. The first grid with a hit wins. Of
  two hits the nearer one is taken, and of two at equal distance the even one.
-/

namespace WireTree

/-- A decimal: a whole number of digits times a power of ten. -/
structure Decimal where
  digits : Nat
  exponent : Int
  deriving DecidableEq, Repr

namespace Shortest

/-- A positive real with the interval of the numbers that round to it. All three are numerators
over `den`. -/
structure Reading where
  low : Nat
  value : Nat
  high : Nat
  den : Nat
  closed : Bool

/-- The interval of the finite real with the given parts. The unit is a quarter of its last bit. -/
def Reading.ofParts (exponent fraction : Nat) : Reading :=
  let m := if exponent = 0 then fraction else 0x10_0000_0000_0000 + fraction
  let q : Int := (max exponent 1 : Nat) - 1077
  let scale := Nat.pow 2 q.toNat
  let below := if fraction = 0 ∧ 1 < exponent then 1 else 2
  { low := (4 * m - below) * scale
    value := 4 * m * scale
    high := (4 * m + 2) * scale
    den := Nat.pow 2 (-q).toNat
    closed := m % 2 == 0 }

/-- The number of decimal digits. -/
def digitCount (n : Nat) : Nat :=
  n.repr.length

/-- The power of ten of the leading digit of `num / den`. Every positive 64-bit real is more than
`10 ^ (-330)`, so that scaling by that much leaves a leading digit. -/
def leadingExponent (num den : Nat) : Int :=
  (digitCount (num * Nat.pow 10 330 / den) : Int) - 331

/-- `num / den` over `10 ^ e`, as a numerator and a denominator. -/
def overTenPow (num den : Nat) (e : Int) : Nat × Nat :=
  if 0 ≤ e then (num, den * Nat.pow 10 e.toNat) else (num * Nat.pow 10 (-e).toNat, den)

/-- Whether `n * 10 ^ e` rounds to the value. -/
def Reading.contains (r : Reading) (n : Nat) (e : Int) : Bool :=
  let (low, den) := overTenPow r.low r.den e
  let (high, _) := overTenPow r.high r.den e
  if r.closed then low ≤ n * den && n * den ≤ high
  else low < n * den && n * den < high

/-- The best point of the grid with the unit `10 ^ e`, if any rounds to the value. -/
def Reading.onGrid (r : Reading) (e : Int) : Option Decimal :=
  let (num, den) := overTenPow r.value r.den e
  let below := num / den
  let above := below + 1
  let rest := num % den
  match r.contains below e, r.contains above e with
  | false, false => none
  | true, false => some ⟨below, e⟩
  | false, true => some ⟨above, e⟩
  | true, true =>
    if 2 * rest < den then some ⟨below, e⟩
    else if den < 2 * rest then some ⟨above, e⟩
    else some ⟨below + below % 2, e⟩

/-- The first hit on the grids of `k`, `k + 1`, … digits, as many grids as `tries`. -/
def Reading.search (r : Reading) (top : Int) : Nat → Nat → Option Decimal
  | 0, _ => none
  | tries + 1, k =>
    match r.onGrid (top - k + 1) with
    | some d => some d
    | none => r.search top tries (k + 1)

/-- The fewest digits that read back as the finite positive real with the given parts. Seventeen
digits always suffice. -/
def find (exponent fraction : Nat) : Option Decimal :=
  let r := Reading.ofParts exponent fraction
  r.search (leadingExponent r.value r.den) 17 1

/-- The digits of a decimal without zeros at the end, and the power of ten of the first. -/
def scientific (d : Decimal) : List Char × Int :=
  let cs := d.digits.repr.toList
  let stripped := (cs.reverse.dropWhile (· == '0')).reverse
  (stripped, d.exponent + cs.length - 1)

end Shortest

end WireTree
