import WireTree.Builder.Draft
import WireTree.Walk

/-!
# Decoding and validating

Whole buffers: the header is checked, and then the declared region is walked over.

* `decodeWith` builds whatever a builder makes of a buffer, and gives the builder's state as well,
  also after a failure.
* `decode` and `decodeJson` build values and JSON trees.
* `check` builds nothing and always refuses unknown tags; `validate` only says whether it succeeds.
-/

namespace WireTree

variable {σ ν : Type}

/-- Decodes a buffer with a builder. -/
def decodeWith (b : Builder σ ν) (o : Options) (bytes : List UInt8) (s : σ) :
    Except DecodeError ν × σ :=
  match Header.parse bytes with
  | .error e => (.error e, s)
  | .ok h =>
    match Walk.root b o h ⟨h.region bytes, s⟩ with
    | .ok node after => (.ok node, after.built)
    | .error e after => (.error e, after.built)

/-- Decodes a buffer into a tree. -/
def decodeTree {α : Type} (kind : TreeKind α) (o : Options) (bytes : List UInt8) :
    Except DecodeError α :=
  (decodeWith kind.builder o bytes ()).1.map kind.finish

/-- Decodes a buffer into a value. -/
def decode (o : Options) (bytes : List UInt8) : Except DecodeError Value :=
  decodeTree .value o bytes

/-- Decodes a buffer into a JSON tree. -/
def decodeJson (o : Options) (bytes : List UInt8) : Except DecodeError Json :=
  decodeTree .json o bytes

/-- Checks a buffer. Unknown tags are refused whatever the options say. -/
def check (o : Options) (bytes : List UInt8) : Except DecodeError Unit :=
  (decodeWith .skip o.strict bytes ()).1

/-- Whether a buffer passes the check. -/
def validate (o : Options) (bytes : List UInt8) : Bool :=
  (check o bytes).isOk

end WireTree
