/-!
# White space

The characters with the Unicode property `White_Space`, and texts without them at their ends.
-/

namespace WireTree.WhiteSpace

/-- The code points with the property, as ranges of first and last, in order. -/
def ranges : List (Nat × Nat) :=
  [(0x9, 0xd), (0x20, 0x20), (0x85, 0x85), (0xa0, 0xa0), (0x1680, 0x1680), (0x2000, 0x200a),
    (0x2028, 0x2029), (0x202f, 0x202f), (0x205f, 0x205f), (0x3000, 0x3000)]

/-- Whether a character is white space. -/
def contains (c : Char) : Bool :=
  ranges.any fun (first, last) => first ≤ c.toNat && c.toNat ≤ last

/-- A text without the white space at its ends. -/
def trim (s : String) : String :=
  String.ofList
    (((s.toList.dropWhile contains).reverse.dropWhile contains).reverse)

end WireTree.WhiteSpace
