/-!
# Little-endian words

Fixed-width numbers are written least significant byte first.

* `Width` is the size of a word: one, two, four or eight bytes. A word is a `BitVec w.bits`, and
  reading it as signed or unsigned is left to whoever uses it.
* `LittleEndian.encode k n` is the `k` low bytes of `n`; `LittleEndian.decode` is the number that
  a list of bytes stands for.

Results:
* `LittleEndian.encode_decode`: encoding gives back the bytes themselves.
-/

namespace WireTree

/-- The size of a machine word. -/
inductive Width where
  | w8
  | w16
  | w32
  | w64
  deriving DecidableEq, Repr

namespace LittleEndian

/-- The `k` low bytes of `n`, least significant first. -/
def encode : Nat → Nat → List UInt8
  | 0, _ => []
  | k + 1, n => UInt8.ofNat n :: encode k (n / 256)

/-- The number with the given bytes, least significant first. -/
def decode : List UInt8 → Nat
  | [] => 0
  | b :: bs => b.toNat + 256 * decode bs

@[simp] theorem length_encode (k n : Nat) : (encode k n).length = k := by
  induction k generalizing n with
  | zero => rfl
  | succ k ih => simp [encode, ih]

/-- Encoding a decoded list gives the list back. -/
theorem encode_decode (bs : List UInt8) : encode bs.length (decode bs) = bs := by
  induction bs with
  | nil => rfl
  | cons b bs ih =>
    have hb : b.toNat < 256 := b.toNat_lt
    simp only [List.length_cons, encode, decode]
    congr 1
    · apply UInt8.toNat_inj.1
      rw [UInt8.toNat_ofNat']
      omega
    · rw [show (b.toNat + 256 * decode bs) / 256 = decode bs by omega, ih]

end LittleEndian

namespace Width

/-- The number of bytes of a word. -/
def bytes : Width → Nat
  | w8 => 1
  | w16 => 2
  | w32 => 4
  | w64 => 8

/-- The number of bits of a word. -/
@[reducible] def bits : Width → Nat
  | w8 => 8
  | w16 => 16
  | w32 => 32
  | w64 => 64

/-- The bytes of a word. -/
def encode (w : Width) (x : BitVec w.bits) : List UInt8 :=
  LittleEndian.encode w.bytes x.toNat

/-- The word with the given bytes. -/
def decode (w : Width) (bs : List UInt8) : BitVec w.bits :=
  BitVec.ofNat w.bits (LittleEndian.decode bs)

@[simp] theorem length_encode (w : Width) (x : BitVec w.bits) : (w.encode x).length = w.bytes :=
  LittleEndian.length_encode ..

end Width

end WireTree
