import WireTree.Json
import WireTree.Real.Decimal

/-!
# Tokens of JSON text

JSON text is a sequence of brackets, commas, colons, words, numbers and quoted texts, with blanks
in between.

* `Token.ofText?` cuts a text into tokens, and fails if some part of it is none.
* Blanks are the space, the tab, the line feed and the carriage return, and nothing else.
* A number without fraction and exponent is a whole number if it fits 64 bits. Every other number is
  a real, with its sign even if it is zero. Minus zero is a real for that reason.
* Of the digits of a real, those count that still fit into 64 bits together. Each further one in
  front of the point counts as a zero, and each further one behind the point not at all. So the real
  is not always the nearest one, for this and for the way in which `Binary64.ofDecimal?` rounds. A
  number whose real would be infinite is no token.
* A quoted text holds no control character below the space. Escapes by number are code units of 16
  bits; those of a pair have to come as a pair.
-/

namespace WireTree

/-- A piece of JSON text. -/
inductive Token where
  | openArray
  | closeArray
  | openObject
  | closeObject
  | comma
  | colon
  | null
  | bool (b : Bool)
  | whole (n : WholeNumber)
  | real (x : FiniteReal)
  | text (s : String)

namespace Token

/-- Whether a character may stand between tokens. -/
def isBlank (c : Char) : Bool :=
  c = ' ' || c = '\t' || c = '\n' || c = '\r'

/-! ## Numbers -/

/-- Whether a character is a decimal digit. -/
def isDigit (c : Char) : Bool :=
  48 ≤ c.toNat && c.toNat ≤ 57

/-- The number that decimal digits stand for. -/
def ofDigits (cs : List Char) : Nat :=
  cs.foldl (fun n c => 10 * n + (c.toNat - 48)) 0

/-- Cuts off a run of digits. There has to be at least one. -/
def digits? (cs : List Char) : Option (List Char × List Char) :=
  match cs.span isDigit with
  | ([], _) => none
  | run => some run

/-- Cuts off the digits before the point: a zero alone, or digits that do not start with one. -/
def integerPart? (cs : List Char) : Option (List Char × List Char) :=
  match cs with
  | '0' :: rest => some (['0'], rest)
  | _ => digits? cs

/-- Cuts off a point and the digits behind it, if there is a point. -/
def fractionPart? (cs : List Char) : Option (List Char × List Char) :=
  match cs with
  | '.' :: rest => digits? rest
  | _ => some ([], cs)

/-- Cuts off the digits of an exponent, behind an optional sign. -/
def signedDigits? (cs : List Char) : Option (Int × List Char) :=
  match cs with
  | '+' :: rest => (digits? rest).map fun (ds, rest) => ((ofDigits ds : Int), rest)
  | '-' :: rest => (digits? rest).map fun (ds, rest) => (-(ofDigits ds : Int), rest)
  | _ => (digits? cs).map fun (ds, rest) => ((ofDigits ds : Int), rest)

/-- Cuts off an exponent, if there is one. -/
def exponentPart? (cs : List Char) : Option (Option Int × List Char) :=
  match cs with
  | 'e' :: rest => (signedDigits? rest).map fun (e, rest) => (some e, rest)
  | 'E' :: rest => (signedDigits? rest).map fun (e, rest) => (some e, rest)
  | _ => some (none, cs)

/-- The number with further digits behind it, as long as it fits 64 bits, and the digits that are
left then. -/
def appendDigits (n : Nat) : List Char → Nat × List Char
  | [] => (n, [])
  | c :: cs =>
    let next := 10 * n + (c.toNat - 48)
    if next < 0x1_0000_0000_0000_0000 then appendDigits next cs else (n, c :: cs)

/-- The exponent of ten with a written one added to it. It stays in 32 bits, and if the written one
does not fit these, that alone counts. -/
def addExponent (e written : Int) : Int :=
  if written.natAbs ≤ 0x7fff_ffff then max (-0x8000_0000) (min 0x7fff_ffff (e + written))
  else written

/-- The real with the given digits before and behind the point, and the given exponent. -/
def realToken? (negative : Bool) (before behind : List Char) (exponent : Int) : Option Token := do
  let (front, dropped) := appendDigits 0 before
  let (m, ignored) := appendDigits front behind
  let e : Int := dropped.length - (behind.length - ignored.length : Nat)
  let x ← Binary64.ofDecimal? negative m (addExponent e exponent)
  if h : x.isFinite = true then some (.real ⟨x, h⟩) else none

/-- The number with the given digits before the point, without fraction and exponent. -/
def integerToken? (negative : Bool) (before : List Char) : Option Token :=
  let n := ofDigits before
  if negative then
    if h : 0 < n ∧ n ≤ 0x8000_0000_0000_0000 then some (.whole ⟨-n, by omega, by omega⟩)
    else realToken? true before [] 0
  else
    if h : n < 0x1_0000_0000_0000_0000 then some (.whole ⟨n, by omega, by omega⟩)
    else realToken? false before [] 0

/-- Cuts off a number behind its sign. -/
def number? (negative : Bool) (cs : List Char) : Option (Token × List Char) := do
  let (before, rest) ← integerPart? cs
  let (behind, rest) ← fractionPart? rest
  let (exponent, rest) ← exponentPart? rest
  let token ←
    match behind, exponent with
    | [], none => integerToken? negative before
    | _, _ => realToken? negative before behind (exponent.getD 0)
  return (token, rest)

/-! ## Quoted texts -/

/-- The value of a hexadecimal digit. -/
def hexValue? (c : Char) : Option Nat :=
  if 48 ≤ c.toNat ∧ c.toNat ≤ 57 then some (c.toNat - 48)
  else if 65 ≤ c.toNat ∧ c.toNat ≤ 70 then some (c.toNat - 55)
  else if 97 ≤ c.toNat ∧ c.toNat ≤ 102 then some (c.toNat - 87)
  else none

/-- The code unit of four hexadecimal digits. -/
def codeUnit? (a b c d : Char) : Option Nat := do
  let a ← hexValue? a
  let b ← hexValue? b
  let c ← hexValue? c
  let d ← hexValue? d
  return ((a * 16 + b) * 16 + c) * 16 + d

/-- The character of a code unit that needs no partner. -/
def singleUnit? (u : Nat) : Option Char :=
  if 0xd800 ≤ u ∧ u < 0xe000 then none else some (Char.ofNat u)

/-- The character of a pair of code units. -/
def unitPair? (high low : Nat) : Option Char :=
  if 0xd800 ≤ high ∧ high < 0xdc00 ∧ 0xdc00 ≤ low ∧ low < 0xe000 then
    some (Char.ofNat (0x10000 + (high - 0xd800) * 0x400 + (low - 0xdc00)))
  else none

/-- The character of an escape of one letter. -/
def letterEscape? (c : Char) : Option Char :=
  if c = '"' then some '"'
  else if c = '\\' then some '\\'
  else if c = '/' then some '/'
  else if c = 'b' then some (Char.ofNat 8)
  else if c = 'f' then some (Char.ofNat 12)
  else if c = 'n' then some '\n'
  else if c = 'r' then some '\r'
  else if c = 't' then some '\t'
  else none

/-- Cuts off the rest of a quoted text up to its closing quote. The characters before it are kept
in reverse. -/
def quoted? (before : List Char) : List Char → Option (Token × List Char)
  | [] => none
  | '"' :: rest => some (.text (String.ofList before.reverse), rest)
  | '\\' :: 'u' :: a :: b :: c :: d :: rest =>
    match codeUnit? a b c d with
    | none => none
    | some unit =>
      match singleUnit? unit with
      | some ch => quoted? (ch :: before) rest
      | none =>
        match rest with
        | '\\' :: 'u' :: a' :: b' :: c' :: d' :: rest =>
          match (codeUnit? a' b' c' d').bind (unitPair? unit) with
          | some ch => quoted? (ch :: before) rest
          | none => none
        | _ => none
  | '\\' :: c :: rest =>
    match letterEscape? c with
    | some ch => quoted? (ch :: before) rest
    | none => none
  | c :: rest => if c.toNat < 32 ∨ c = '\\' then none else quoted? (c :: before) rest

/-! ## Tokens -/

/-- Cuts a token off a text that does not start with a blank. -/
def next? (cs : List Char) : Option (Token × List Char) :=
  match cs with
  | '[' :: rest => some (openArray, rest)
  | ']' :: rest => some (closeArray, rest)
  | '\x7b' :: rest => some (openObject, rest)
  | '\x7d' :: rest => some (closeObject, rest)
  | ',' :: rest => some (comma, rest)
  | ':' :: rest => some (colon, rest)
  | '"' :: rest => quoted? [] rest
  | 'n' :: 'u' :: 'l' :: 'l' :: rest => some (null, rest)
  | 't' :: 'r' :: 'u' :: 'e' :: rest => some (bool true, rest)
  | 'f' :: 'a' :: 'l' :: 's' :: 'e' :: rest => some (bool false, rest)
  | '-' :: rest => number? true rest
  | _ => number? false cs

/-- Cuts a text into at most `limit` tokens, behind those found so far. -/
def tokens? (found : Array Token) : Nat → List Char → Option (Array Token)
  | 0, cs => if cs.all isBlank then some found else none
  | limit + 1, cs =>
    match cs.dropWhile isBlank with
    | [] => some found
    | cs =>
      match next? cs with
      | some (token, rest) => tokens? (found.push token) limit rest
      | none => none

/-- Cuts a text into tokens. No token is empty, so there are at most as many as characters. -/
def ofText? (s : String) : Option (Array Token) :=
  tokens? #[] s.length s.toList

end Token

end WireTree
