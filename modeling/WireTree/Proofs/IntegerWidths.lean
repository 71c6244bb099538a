import WireTree.Narrowest
import Mathlib.Algebra.Order.Ring.Int

/-!
# Integers of different widths

The narrowest word for an integer, and what is left of an integer in a narrower word.

Results:
* `lt_two_pow_ofUInt`, `neg_two_pow_le_ofNegative`: the narrowest word holds the number.
* **`bytes_ofUInt_le`**, **`bytes_ofNegative_le`**: no word that holds it is narrower.
* `ofBitVec_setWidth_setWidth`, `ofBitVec_signExtend_setWidth`: a number comes back from a word that
  holds it, by zeros if it is unsigned and by its sign if it is not.
-/

namespace WireTree

namespace Width

/-! ## The narrowest word -/

theorem lt_two_pow_ofUInt (n : UInt64) : n.toNat < 2 ^ (ofUInt n).bits := by
  unfold ofUInt
  split
  · assumption
  split
  · assumption
  split
  · assumption
  · exact n.toNat_lt

/-- No narrower word holds an unsigned number. -/
theorem bytes_ofUInt_le {n : UInt64} {w : Width} (h : n.toNat < 2 ^ w.bits) :
    (ofUInt n).bytes ≤ w.bytes := by
  unfold ofUInt
  cases w with
  | w8 =>
    exact Nat.le_of_eq (congrArg bytes (if_pos h))
  | w16 =>
    split
    · decide
    exact Nat.le_of_eq (congrArg bytes (if_pos h))
  | w32 =>
    split
    · decide
    split
    · decide
    exact Nat.le_of_eq (congrArg bytes (if_pos h))
  | w64 =>
    split
    · decide
    split
    · decide
    split <;> decide

theorem neg_two_pow_le_ofNegative (n : Int64) :
    -2 ^ ((ofNegative n).bits - 1) ≤ n.toInt := by
  unfold ofNegative
  split
  · assumption
  split
  · assumption
  split
  · assumption
  · exact n.le_toInt

/-- No narrower word holds a negative number. -/
theorem bytes_ofNegative_le {n : Int64} {w : Width} (h : -2 ^ (w.bits - 1) ≤ n.toInt) :
    (ofNegative n).bytes ≤ w.bytes := by
  unfold ofNegative
  cases w with
  | w8 =>
    exact Nat.le_of_eq (congrArg bytes (if_pos h))
  | w16 =>
    split
    · decide
    exact Nat.le_of_eq (congrArg bytes (if_pos h))
  | w32 =>
    split
    · decide
    split
    · decide
    exact Nat.le_of_eq (congrArg bytes (if_pos h))
  | w64 =>
    split
    · decide
    split
    · decide
    split <;> decide

theorem bytes_le (w : Width) : w.bytes ≤ 8 := by
  cases w <;> decide

theorem bits_le (w : Width) : w.bits ≤ 64 := by
  cases w <;> decide

end Width

/-! ## Narrowing and extending -/

/-- An unsigned number that fits a word is what the word says. -/
theorem ofBitVec_setWidth_setWidth {n : UInt64} {w : Width} (h : n.toNat < 2 ^ w.bits) :
    UInt64.ofBitVec ((n.toBitVec.setWidth w.bits).setWidth 64) = n := by
  apply UInt64.toNat_inj.1
  rw [UInt64.toNat_ofBitVec, BitVec.toNat_setWidth, BitVec.toNat_setWidth,
    UInt64.toNat_toBitVec, Nat.mod_eq_of_lt h, Nat.mod_eq_of_lt n.toNat_lt]

/-- A signed number that fits a word is what the word says. -/
theorem ofBitVec_signExtend_setWidth {n : Int64} {w : Width} (hlow : -2 ^ (w.bits - 1) ≤ n.toInt)
    (hhigh : n.toInt < 0) :
    Int64.ofBitVec ((n.toBitVec.setWidth w.bits).signExtend 64) = n := by
  apply Int64.toBitVec_inj.1
  apply BitVec.eq_of_toInt_eq
  have hdvd : 2 ^ w.bits ∣ 2 ^ 64 := Nat.pow_dvd_pow 2 w.bits_le
  show ((n.toBitVec.setWidth w.bits).signExtend 64).toInt = n.toBitVec.toInt
  rw [BitVec.toInt_signExtend_of_le w.bits_le, BitVec.toInt_setWidth,
    ← Int.bmod_bmod_of_dvd hdvd, ← BitVec.toInt_eq_toNat_bmod]
  have hn : n.toBitVec.toInt = n.toInt := rfl
  apply Int.bmod_eq_of_le_mul_two
  · cases w <;> simp only [Width.bits] at * <;> omega
  · cases w <;> simp only [Width.bits] at * <;> omega

theorem toNat_ofNat_of_lt {n : Nat} (h : n < 0x1_0000_0000_0000_0000) :
    (UInt64.ofNat n).toNat = n :=
  UInt64.toNat_ofNat_of_lt' h

/-- An unsigned number below half the range stays the same as a signed one. -/
theorem toInt_toInt64_of_lt {n : UInt64} (h : n.toNat < 0x8000_0000_0000_0000) :
    n.toInt64.toInt = (n.toNat : Int) := by
  show n.toBitVec.toInt = (n.toBitVec.toNat : Int)
  apply BitVec.toInt_eq_toNat_of_lt
  rw [UInt64.toNat_toBitVec]
  omega

/-- A signed number that is not negative stays the same as an unsigned one. -/
theorem toNat_toUInt64_of_nonneg {n : Int64} (h : 0 ≤ n.toInt) :
    (n.toUInt64.toNat : Int) = n.toInt := by
  have hlt : 2 * n.toBitVec.toNat < 2 ^ 64 := BitVec.toInt_pos_iff.1 h
  exact (BitVec.toInt_eq_toNat_of_lt hlt).symm

end WireTree
