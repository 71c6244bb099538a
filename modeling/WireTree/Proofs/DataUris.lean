import WireTree.DataUri
import Mathlib.Data.Option.Basic

/-!
# One URI for every run of bytes

A text is taken for bytes only if it is the very text that the bytes are written as. Padding has to
be there, the bits that are left over have to be zero, and every digit has one character.

Results:
* `Base64.digitChar_of_digitValue?`: a digit is read from its own character only.
* `Base64.encode_of_decode?`, **`DataUri.encode_of_decode?`**: what is read is written the same way.
* `Base64.decode?_encode`, **`DataUri.decode?_encode`**: what is written is read again, whatever the
  number of bytes.
-/

namespace WireTree

namespace Base64

/-- A digit is read from its own character only. -/
theorem digitChar_of_digitValue? {c : Char} {n : Nat} (h : digitValue? c = some n) :
    n < 64 ∧ digitChar n = c := by
  unfold digitValue? at h
  -- Capitals, small letters, decimal digits and the two signs, in the order of the definition.
  split at h
  · cases h
    refine ⟨by omega, ?_⟩
    rw [digitChar, if_pos (by omega), Nat.add_sub_cancel' (by omega), Char.ofNat_toNat]
  split at h
  · cases h
    refine ⟨by omega, ?_⟩
    rw [digitChar, if_neg (by omega), if_pos (by omega), Nat.add_sub_cancel,
      Nat.add_sub_cancel' (by omega), Char.ofNat_toNat]
  split at h
  · cases h
    refine ⟨by omega, ?_⟩
    rw [digitChar, if_neg (by omega), if_neg (by omega), if_pos (by omega), Nat.add_sub_cancel,
      Nat.add_sub_cancel' (by omega), Char.ofNat_toNat]
  split at h
  · cases h
    exact ⟨by decide, ‹c = '+'›.symm⟩
  split at h
  · cases h
    exact ⟨by decide, ‹c = '/'›.symm⟩
  · cases h

theorem toNat_ofNat_of_lt_256 {n : Nat} (h : n < 256) : (UInt8.ofNat n).toNat = n := by
  rw [UInt8.toNat_ofNat']
  exact Nat.mod_eq_of_lt h

/-! ## Groups of digits -/

section
variable {w x y z : Nat} (hw : w < 64) (hx : x < 64)
include hw hx

/-- The byte of two digits is written as these digits if no bits are left over. -/
theorem encode_lastByte (hlow : x % 16 = 0) :
    encode [UInt8.ofNat (w * 4 + x / 16)] = [digitChar w, digitChar x, '=', '='] := by
  rw [encode, toNat_ofNat_of_lt_256 (by omega), show (w * 4 + x / 16) / 4 = w by omega,
    show (w * 4 + x / 16) % 4 * 16 = x by omega]

variable (hy : y < 64)
include hy

/-- The bytes of three digits are written as these digits if no bits are left over. -/
theorem encode_lastTwoBytes (hlow : y % 4 = 0) :
    encode [UInt8.ofNat (w * 4 + x / 16), UInt8.ofNat (x % 16 * 16 + y / 4)] =
      [digitChar w, digitChar x, digitChar y, '='] := by
  rw [encode, toNat_ofNat_of_lt_256 (by omega), toNat_ofNat_of_lt_256 (by omega),
    show (w * 4 + x / 16) / 4 = w by omega,
    show (w * 4 + x / 16) % 4 * 16 + (x % 16 * 16 + y / 4) / 16 = x by omega,
    show (x % 16 * 16 + y / 4) % 16 * 4 = y by omega]

/-- The bytes of four digits are written as these digits. -/
theorem encode_group (hz : z < 64) (rest : List UInt8) :
    encode (UInt8.ofNat (w * 4 + x / 16) :: UInt8.ofNat (x % 16 * 16 + y / 4) ::
        UInt8.ofNat (y % 4 * 64 + z) :: rest) =
      digitChar w :: digitChar x :: digitChar y :: digitChar z :: encode rest := by
  rw [encode, toNat_ofNat_of_lt_256 (by omega), toNat_ofNat_of_lt_256 (by omega),
    toNat_ofNat_of_lt_256 (by omega), show (w * 4 + x / 16) / 4 = w by omega,
    show (w * 4 + x / 16) % 4 * 16 + (x % 16 * 16 + y / 4) / 16 = x by omega,
    show (x % 16 * 16 + y / 4) % 16 * 4 + (y % 4 * 64 + z) / 64 = y by omega,
    show (y % 4 * 64 + z) % 64 = z by omega]

end

/-- What is read from digits is written as the same digits. -/
theorem encode_of_decode? {cs : List Char} {bytes : List UInt8} (h : decode? cs = some bytes) :
    encode bytes = cs := by
  fun_induction decode? cs generalizing bytes with
  | case1 =>
    cases h
    rfl
  | case2 w x =>
    simp only [lastByte?, Option.bind_eq_bind, Option.bind_eq_some_iff, Option.guard_eq_some',
      Option.pure_def, Option.some.injEq] at h
    obtain ⟨i, hi, j, hj, _, hlow, rfl⟩ := h
    obtain ⟨hw, hw'⟩ := digitChar_of_digitValue? hi
    obtain ⟨hx, hx'⟩ := digitChar_of_digitValue? hj
    rw [encode_lastByte hw hx hlow, hw', hx']
  | case3 w x y =>
    simp only [lastTwoBytes?, Option.bind_eq_bind, Option.bind_eq_some_iff, Option.guard_eq_some',
      Option.pure_def, Option.some.injEq] at h
    obtain ⟨i, hi, j, hj, k, hk, _, hlow, rfl⟩ := h
    obtain ⟨hw, hw'⟩ := digitChar_of_digitValue? hi
    obtain ⟨hx, hx'⟩ := digitChar_of_digitValue? hj
    obtain ⟨hy, hy'⟩ := digitChar_of_digitValue? hk
    rw [encode_lastTwoBytes hw hx hy hlow, hw', hx', hy']
  | case4 w x y z rest _ _ ih =>
    simp only [Option.bind_eq_bind, Option.bind_eq_some_iff, Option.pure_def,
      Option.some.injEq] at h
    obtain ⟨i, hi, j, hj, k, hk, l, hl, tail, htail, rfl⟩ := h
    obtain ⟨hw, hw'⟩ := digitChar_of_digitValue? hi
    obtain ⟨hx, hx'⟩ := digitChar_of_digitValue? hj
    obtain ⟨hy, hy'⟩ := digitChar_of_digitValue? hk
    obtain ⟨hz, hz'⟩ := digitChar_of_digitValue? hl
    rw [encode_group hw hx hy hz, ih htail, hw', hx', hy', hz']
  | case5 =>
    cases h

/-! ## Reading what was written -/

/-- Padding is no digit. -/
theorem digitChar_ne_padding {n : Nat} (h : n < 64) : digitChar n ≠ '=' := by
  intro hpad
  have hvalue := digitValue?_digitChar h
  rw [hpad] at hvalue
  cases hvalue

section
variable {w x y z : Nat} (hw : w < 64) (hx : x < 64)
include hw hx

/-- Two digits and padding are read as one byte if no bits are left over. -/
theorem decode?_lastByte (hlow : x % 16 = 0) :
    decode? [digitChar w, digitChar x, '=', '='] = some [UInt8.ofNat (w * 4 + x / 16)] := by
  simp only [decode?, lastByte?, Option.bind_eq_bind, Option.bind_eq_some_iff,
    Option.guard_eq_some', Option.pure_def]
  exact ⟨w, digitValue?_digitChar hw, x, digitValue?_digitChar hx, (), hlow, rfl⟩

variable (hy : y < 64)
include hy

/-- Three digits and padding are read as two bytes if no bits are left over. -/
theorem decode?_lastTwoBytes (hlow : y % 4 = 0) :
    decode? [digitChar w, digitChar x, digitChar y, '='] =
      some [UInt8.ofNat (w * 4 + x / 16), UInt8.ofNat (x % 16 * 16 + y / 4)] := by
  rw [decode?.eq_3 _ _ _ (digitChar_ne_padding hy)]
  simp only [lastTwoBytes?, Option.bind_eq_bind, Option.bind_eq_some_iff,
    Option.guard_eq_some', Option.pure_def]
  exact ⟨w, digitValue?_digitChar hw, x, digitValue?_digitChar hx, y, digitValue?_digitChar hy, (),
    hlow, rfl⟩

/-- Four digits are read as three bytes, before those of the rest. -/
theorem decode?_group (hz : z < 64) {rest : List Char} {bytes : List UInt8}
    (hrest : decode? rest = some bytes) :
    decode? (digitChar w :: digitChar x :: digitChar y :: digitChar z :: rest) =
      some (UInt8.ofNat (w * 4 + x / 16) :: UInt8.ofNat (x % 16 * 16 + y / 4) ::
        UInt8.ofNat (y % 4 * 64 + z) :: bytes) := by
  have hpad := digitChar_ne_padding hz
  rw [decode?.eq_4 _ _ _ _ _ (fun _ h => absurd h hpad) fun h => absurd h hpad]
  simp only [Option.bind_eq_bind, Option.bind_eq_some_iff, Option.pure_def]
  exact ⟨w, digitValue?_digitChar hw, x, digitValue?_digitChar hx, y, digitValue?_digitChar hy, z,
    digitValue?_digitChar hz, bytes, hrest, rfl⟩

end

theorem ofNat_eq_of_toNat {n : Nat} {b : UInt8} (h : n = b.toNat) : UInt8.ofNat n = b := by
  rw [h, UInt8.ofNat_toNat]

/-- Bytes are read back from their digits. -/
theorem decode?_encode (bytes : List UInt8) : decode? (encode bytes) = some bytes := by
  fun_induction encode bytes with
  | case1 => rfl
  | case2 a =>
    have ha := a.toNat_lt
    rw [decode?_lastByte (by omega) (by omega) (by omega), ofNat_eq_of_toNat (b := a) (by omega)]
  | case3 a b =>
    have ha := a.toNat_lt
    have hb := b.toNat_lt
    rw [decode?_lastTwoBytes (by omega) (by omega) (by omega) (by omega),
      ofNat_eq_of_toNat (b := a) (by omega), ofNat_eq_of_toNat (b := b) (by omega)]
  | case4 a b c rest ih =>
    have ha := a.toNat_lt
    have hb := b.toNat_lt
    have hc := c.toNat_lt
    rw [decode?_group (by omega) (by omega) (by omega) (by omega) ih,
      ofNat_eq_of_toNat (b := a) (by omega), ofNat_eq_of_toNat (b := b) (by omega),
      ofNat_eq_of_toNat (b := c) (by omega)]

end Base64

namespace DataUri

/-- **A text is taken for bytes only if it is the URI of the bytes.** -/
theorem encode_of_decode? {s : String} {bytes : List UInt8} (h : decode? s = some bytes) :
    encode bytes = s := by
  unfold decode? at h
  split at h
  · rename_i hlead
    rw [encode, Base64.encode_of_decode? h, ← hlead, List.take_append_drop, String.ofList_toList]
  · cases h

/-- **The URI of bytes is taken for these bytes.** -/
theorem decode?_encode (bytes : List UInt8) : decode? (encode bytes) = some bytes := by
  have hlead : lead.length = lead.toList.length := rfl
  rw [decode?, encode, String.toList_ofList, hlead, List.take_left, if_pos rfl, List.drop_left,
    Base64.decode?_encode]

end DataUri

end WireTree
