import WireTree.Json
import WireTree.Real.Shortest

/-!
# Printing JSON

Trees as text for people, one element or field a line.

* Every level is indented by two more blanks, a key is followed by a colon and a blank, and empty
  containers are written without a line break. No line break follows the tree.
* Whole numbers are decimal. Reals have the fewest digits that read back. They are written plainly
  if the power of ten of the first digit is at least -5 and below 16, with at least one digit on
  each side of the point, and else with an exponent that has a sign.
* Quotes, backslashes and control characters below the space are escaped, and no other character is.
-/

namespace WireTree.Json

/-! ## Numbers -/

/-- The layout of a positive decimal with the given digits, of which the first counts
`10 ^ exponent`. -/
def layout (digits : List Char) (exponent : Int) : List Char :=
  if -5 ≤ exponent ∧ exponent < 0 then
    '0' :: '.' :: List.replicate (-exponent - 1).toNat '0' ++ digits
  else if 0 ≤ exponent ∧ exponent < 16 then
    let before := exponent.toNat + 1
    if digits.length ≤ before then
      digits ++ List.replicate (before - digits.length) '0' ++ ['.', '0']
    else digits.take before ++ '.' :: digits.drop before
  else
    let mantissa :=
      match digits with
      | first :: second :: more => first :: '.' :: second :: more
      | _ => digits
    let sign := if exponent < 0 then '-' else '+'
    mantissa ++ 'e' :: sign :: exponent.natAbs.repr.toList

/-- The text of a finite real. -/
def realText (x : Binary64) : String :=
  let magnitude :=
    if x.isZero then ['0', '.', '0']
    else
      match Shortest.find x.exponent x.fraction with
      | some d => layout (Shortest.scientific d).1 (Shortest.scientific d).2
      | none => []
  String.ofList (if x.negative then '-' :: magnitude else magnitude)

/-! ## Texts -/

/-- A character as it stands between quotes. -/
def escape (c : Char) : List Char :=
  if c = '"' then ['\\', '"']
  else if c = '\\' then ['\\', '\\']
  else if c = '\n' then ['\\', 'n']
  else if c = '\r' then ['\\', 'r']
  else if c = '\t' then ['\\', 't']
  else if c.toNat = 8 then ['\\', 'b']
  else if c.toNat = 12 then ['\\', 'f']
  else if c.toNat < 32 then
    ['\\', 'u', '0', '0', Nat.digitChar (c.toNat / 16), Nat.digitChar (c.toNat % 16)]
  else [c]

/-- A text between quotes. -/
def quote (s : String) : String :=
  String.ofList ('"' :: s.toList.flatMap escape ++ ['"'])

/-! ## Trees -/

/-- The start of a line at some level. -/
def newLine (level : Nat) : String :=
  String.ofList ('\n' :: List.replicate (2 * level) ' ')

mutual

/-- Puts the text of a tree at some level behind what is printed already. -/
def print (out : String) (level : Nat) : Json → String
  | .null => out ++ "null"
  | .bool b => out ++ (if b then "true" else "false")
  | .whole n => out ++ toString n.val
  | .real x => out ++ realText x.val
  | .text s => out ++ quote s
  | .array [] => out ++ "[]"
  | .array (j :: js) =>
    printItems (print (out ++ "[" ++ newLine (level + 1)) (level + 1) j) (level + 1) js ++
      newLine level ++ "]"
  | .object [] => out ++ "\x7b\x7d"
  | .object ((k, j) :: rest) =>
    printFields
        (print (out ++ "\x7b" ++ newLine (level + 1) ++ quote k ++ ": ") (level + 1) j)
        (level + 1) rest ++
      newLine level ++ "\x7d"

/-- Prints the elements behind the first one. -/
def printItems (out : String) (level : Nat) : List Json → String
  | [] => out
  | j :: js => printItems (print (out ++ "," ++ newLine level) level j) level js

/-- Prints the fields behind the first one. -/
def printFields (out : String) (level : Nat) : List (String × Json) → String
  | [] => out
  | (k, j) :: rest =>
    printFields (print (out ++ "," ++ newLine level ++ quote k ++ ": ") level j) level rest

end

/-- The text of a tree for people. -/
def pretty (j : Json) : String :=
  print "" 0 j

end WireTree.Json
