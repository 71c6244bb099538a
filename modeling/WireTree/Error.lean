/-!
# Errors

Why a buffer is refused, why a value cannot be written, and why a patch is not carried out.

* `DecodeError` has one constructor per cause. Its numbers are those of the message; offsets count
  from the first byte of the buffer, header included.
* `code` is the stable name of a cause, `message` its wording and `offset?` the place it points at,
  where there is one.
* `EncodeError` has the one cause that the header cannot hold the size.
* `PatchError` has two, and both stop the program.

Sums of machine words are checked, and one that is no machine word stops the program. The
constructors named `overflow` stand for that. With every other `DecodeError` the program goes on.
-/

namespace WireTree

/-- The name under which it is reported that the program was stopped. -/
def stopCode : String :=
  "PANIC"

/-- What the program says when it is stopped by a sum that is no machine word. -/
def overflowMessage : String :=
  "attempt to add with overflow"

/-- Why a buffer is refused. -/
inductive DecodeError where
  /-- The buffer is shorter than a header and one tag. -/
  | bufferTooSmall (length : Nat)
  /-- The declared size is smaller than a header and one tag. -/
  | declaredSizeTooSmall (declared : UInt32)
  /-- The declared size is larger than the buffer. -/
  | declaredSizeExceedsBuffer (declared : UInt32) (length : Nat)
  /-- A tag byte names no kind. -/
  | unknownTag (tag : UInt8) (offset : Nat)
  /-- A payload, length or count does not fit into the declared region. -/
  | truncated (offset : Nat)
  /-- The bytes of a text or key are not UTF-8. -/
  | invalidUtf8 (offset : Nat)
  /-- A container is nested more deeply than allowed. -/
  | tooDeep (maxDepth : UInt64) (offset : Nat)
  /-- The root value ends before the declared region does. -/
  | trailingBytes (unused : Nat) (declared : UInt32)
  /-- The depth inside of a container is no machine word, which stops the program. -/
  | overflow
  deriving DecidableEq, Repr

namespace DecodeError

/-- The stable name of the cause. -/
def code : DecodeError → String
  | bufferTooSmall .. => "MALFORMED_HEADER"
  | declaredSizeTooSmall .. => "MALFORMED_HEADER"
  | declaredSizeExceedsBuffer .. => "MALFORMED_HEADER"
  | unknownTag .. => "UNKNOWN_TAG"
  | truncated .. => "TRUNCATED"
  | invalidUtf8 .. => "INVALID_UTF8"
  | tooDeep .. => "TOO_DEEP"
  | trailingBytes .. => "TRAILING_BYTES"
  | overflow => stopCode

/-- The place in the buffer that the error points at. -/
def offset? : DecodeError → Option Nat
  | unknownTag _ offset => some offset
  | truncated offset => some offset
  | invalidUtf8 offset => some offset
  | tooDeep _ offset => some offset
  | _ => none

/-- Two hexadecimal digits in lower case. -/
def hexByte (b : UInt8) : String :=
  String.ofList [Nat.digitChar (b.toNat / 16), Nat.digitChar (b.toNat % 16)]

/-- The wording of the error. -/
def message : DecodeError → String
  | bufferTooSmall length => s!"size too small to be valid: {length} bytes"
  | declaredSizeTooSmall declared => s!"declared size {declared} is below the 5-byte minimum"
  | declaredSizeExceedsBuffer declared length =>
    s!"declared size {declared} exceeds the {length} bytes supplied"
  | unknownTag tag offset => s!"invalid data type 0x{hexByte tag} at offset {offset}"
  | truncated offset => s!"payload truncated at offset {offset}"
  | invalidUtf8 offset => s!"invalid UTF-8 in string at offset {offset}"
  | tooDeep maxDepth offset => s!"nesting deeper than {maxDepth} at offset {offset}"
  | trailingBytes unused declared =>
    s!"{unused} unused bytes after the root value (declared size {declared})"
  | overflow => overflowMessage

end DecodeError

/-- Why a value cannot be written. -/
inductive EncodeError where
  /-- The size does not fit the 32 bits of the header. -/
  | tooLarge (size : Nat)
  deriving DecidableEq, Repr

namespace EncodeError

/-- The stable name of the cause. -/
def code : EncodeError → String
  | tooLarge .. => "TOO_LARGE"

/-- The wording of the error. -/
def message : EncodeError → String
  | tooLarge size => s!"encoded size {size} does not fit the 32-bit size header"

end EncodeError

/-- Why a patch is not carried out. -/
inductive PatchError where
  /-- The place where the patch would start or end is no machine word. -/
  | overflow
  /-- The patch would not end in what was written. -/
  | outside
  deriving DecidableEq, Repr

/-- What the program says when it is stopped. -/
def PatchError.message : PatchError → String
  | overflow => overflowMessage
  | outside => "patch_u32 outside written range"

end WireTree
