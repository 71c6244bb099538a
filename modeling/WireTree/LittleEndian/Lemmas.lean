import WireTree.LittleEndian
import Mathlib.Algebra.Order.Ring.Nat

/-!
# Lemmas on little-endian words

Results:
* `LittleEndian.decode_lt`: `k` bytes stand for a number below `256 ^ k`.
* `LittleEndian.decode_encode`: decoding gives the number back modulo `256 ^ k`.
* `Width.decode_encode`, `Width.encode_decode`: words and their bytes determine each other.
-/

namespace WireTree

namespace LittleEndian

theorem decode_lt (bs : List UInt8) : decode bs < 256 ^ bs.length := by
  induction bs with
  | nil => exact Nat.one_pos
  | cons b bs ih =>
    have hb : b.toNat < 256 := b.toNat_lt
    simp only [decode, List.length_cons, Nat.pow_succ]
    omega

/-- Decoding the `k` low bytes of `n` gives `n` modulo `256 ^ k`. -/
theorem decode_encode (k n : Nat) : decode (encode k n) = n % 256 ^ k := by
  induction k generalizing n with
  | zero => exact (Nat.mod_one n).symm
  | succ k ih =>
    have h : n % 2 ^ 8 = n % 256 := rfl
    rw [encode, decode, ih, UInt8.toNat_ofNat', h, Nat.pow_succ', Nat.mod_mul]

end LittleEndian

namespace Width

theorem two_pow_bits (w : Width) : 2 ^ w.bits = 256 ^ w.bytes := by
  cases w <;> rfl

/-- A word is read back from its bytes. -/
@[simp] theorem decode_encode (w : Width) (x : BitVec w.bits) : w.decode (w.encode x) = x := by
  apply BitVec.eq_of_toNat_eq
  have h := x.isLt
  rw [decode, encode, LittleEndian.decode_encode, BitVec.toNat_ofNat, ← two_pow_bits,
    Nat.mod_eq_of_lt h, Nat.mod_eq_of_lt h]

/-- Bytes of the right number are read back from their word. -/
theorem encode_decode (w : Width) {bs : List UInt8} (h : bs.length = w.bytes) :
    w.encode (w.decode bs) = bs := by
  have hlt := LittleEndian.decode_lt bs
  rw [h, ← two_pow_bits] at hlt
  rw [encode, decode, BitVec.toNat_ofNat, Nat.mod_eq_of_lt hlt, ← h, LittleEndian.encode_decode]

end Width

end WireTree
