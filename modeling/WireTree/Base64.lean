/-!
# Base 64

Bytes as text in the standard alphabet, padded with `=`.

* Three bytes are four digits of six bits. One or two bytes left over are two or three digits, with
  zero bits behind them and padding up to four characters.
* `Base64.decode?` takes exactly that form: the padding has to be there, the bits that are left
  over have to be zero, and no other character may occur.
-/

namespace WireTree.Base64

/-- The digits of the standard alphabet, in order of their values. -/
def alphabet : List Char :=
  "ABCDEFGHIJKLMNOPQRSTUVWXYZabcdefghijklmnopqrstuvwxyz0123456789+/".toList

/-- The character of a digit below 64. -/
def digitChar (n : Nat) : Char :=
  if n < 26 then Char.ofNat (65 + n)
  else if n < 52 then Char.ofNat (97 + (n - 26))
  else if n < 62 then Char.ofNat (48 + (n - 52))
  else if n = 62 then '+'
  else '/'

/-- The value of a digit. -/
def digitValue? (c : Char) : Option Nat :=
  if 65 ≤ c.toNat ∧ c.toNat ≤ 90 then some (c.toNat - 65)
  else if 97 ≤ c.toNat ∧ c.toNat ≤ 122 then some (c.toNat - 97 + 26)
  else if 48 ≤ c.toNat ∧ c.toNat ≤ 57 then some (c.toNat - 48 + 52)
  else if c = '+' then some 62
  else if c = '/' then some 63
  else none

/-- The digits for bytes, with padding. -/
def encode : List UInt8 → List Char
  | [] => []
  | [a] =>
    [digitChar (a.toNat / 4), digitChar (a.toNat % 4 * 16), '=', '=']
  | [a, b] =>
    [digitChar (a.toNat / 4), digitChar (a.toNat % 4 * 16 + b.toNat / 16),
      digitChar (b.toNat % 16 * 4), '=']
  | a :: b :: c :: rest =>
    digitChar (a.toNat / 4) :: digitChar (a.toNat % 4 * 16 + b.toNat / 16) ::
      digitChar (b.toNat % 16 * 4 + c.toNat / 64) :: digitChar (c.toNat % 64) :: encode rest

/-- The byte of two digits that end in four zero bits. -/
def lastByte? (w x : Char) : Option (List UInt8) := do
  let w ← digitValue? w
  let x ← digitValue? x
  guard (x % 16 = 0)
  return [UInt8.ofNat (w * 4 + x / 16)]

/-- The two bytes of three digits that end in two zero bits. -/
def lastTwoBytes? (w x y : Char) : Option (List UInt8) := do
  let w ← digitValue? w
  let x ← digitValue? x
  let y ← digitValue? y
  guard (y % 4 = 0)
  return [UInt8.ofNat (w * 4 + x / 16), UInt8.ofNat (x % 16 * 16 + y / 4)]

/-- The bytes that digits stand for, if they are in the form that encoding gives them. -/
def decode? : List Char → Option (List UInt8)
  | [] => some []
  | [w, x, '=', '='] => lastByte? w x
  | [w, x, y, '='] => lastTwoBytes? w x y
  | w :: x :: y :: z :: rest => do
    let w ← digitValue? w
    let x ← digitValue? x
    let y ← digitValue? y
    let z ← digitValue? z
    let bytes ← decode? rest
    return UInt8.ofNat (w * 4 + x / 16) :: UInt8.ofNat (x % 16 * 16 + y / 4) ::
      UInt8.ofNat (y % 4 * 64 + z) :: bytes
  | _ => none

/-- Digits have the values of their places in the alphabet. -/
theorem alphabet_eq : alphabet = (List.range 64).map digitChar := by decide

theorem digitValue?_digitChar {n : Nat} (h : n < 64) : digitValue? (digitChar n) = some n := by
  have all : ∀ i : Fin 64, digitValue? (digitChar i.val) = some i.val := by decide
  exact all ⟨n, h⟩

end WireTree.Base64
