import WireTree.Base64

/-!
# Data URIs

Bytes travel through JSON as text: a fixed lead, then the bytes in base 64.

* `DataUri.encode` writes bytes as a URI.
* `DataUri.decode?` recognises a URI. Any other text is just text, also one that starts like a URI
  and does not go on in the form that encoding gives it.
-/

namespace WireTree.DataUri

/-- What every URI starts with. -/
def lead : String := "data:application/octet-stream;base64,"

/-- The URI for bytes. -/
def encode (bytes : List UInt8) : String :=
  String.ofList (lead.toList ++ Base64.encode bytes)

/-- The bytes of a URI. -/
def decode? (s : String) : Option (List UInt8) :=
  if s.toList.take lead.length = lead.toList then Base64.decode? (s.toList.drop lead.length)
  else none

end WireTree.DataUri
