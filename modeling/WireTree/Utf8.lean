/-!
# UTF-8

Text travels as its UTF-8 bytes.

* `Utf8.encode` gives the bytes of a string.
* `Utf8.decode?` gives the string with the given bytes, if they are valid UTF-8.

Results:
* `Utf8.decode?_eq_some_iff`: decoding succeeds exactly on what encoding produces.
-/

namespace WireTree.Utf8

/-- The UTF-8 bytes of a string. -/
def encode (s : String) : List UInt8 :=
  s.toByteArray.data.toList

/-- The string whose UTF-8 bytes these are, if there is one. -/
def decode? (bs : List UInt8) : Option String :=
  String.fromUTF8? ⟨bs.toArray⟩

@[simp] theorem length_encode (s : String) : (encode s).length = s.utf8ByteSize := rfl

@[simp] theorem decode?_encode (s : String) : decode? (encode s) = some s := by
  show String.fromUTF8? s.toByteArray = some s
  rw [String.fromUTF8?, dif_pos s.isValidUTF8]
  rfl

/-- Decoding succeeds exactly on what encoding produces. -/
theorem decode?_eq_some_iff {bs : List UInt8} {s : String} :
    decode? bs = some s ↔ bs = encode s := by
  constructor
  · intro h
    simp only [decode?, String.fromUTF8?] at h
    split at h
    · cases h
      rfl
    · cases h
  · rintro rfl
    exact decode?_encode s

end WireTree.Utf8
