import WireTree.Cursor
import WireTree.Error

/-!
# Headers

A buffer starts with its own total size as a word of four bytes.

* `declaredSize` reads that word and checks nothing; it is zero for a buffer without a full header.
* `Header.parse` checks, in this order, that the buffer can hold a header and a tag, that the
  declared size can, and that the declared size does not exceed the buffer.
* `Header.region` is the window between the header and the declared size, where all reading takes
  place.
-/

namespace WireTree

/-- The number of bytes of a header. -/
def headerSize : Nat := 4

/-- The smallest size of a buffer: a header and a tag. -/
def minBufferSize : Nat := 5

/-- The size that the header declares, and zero if the header is cut off. -/
def declaredSize (bytes : List UInt8) : UInt32 :=
  match bytes with
  | a :: b :: c :: d :: _ => UInt32.ofBitVec (Width.w32.decode [a, b, c, d])
  | _ => 0

/-- The header of a buffer. -/
structure Header where
  /-- The total size of the buffer, header included. -/
  declared : UInt32
  deriving DecidableEq, Repr

namespace Header

/-- Reads and checks the header of a buffer. -/
def parse (bytes : List UInt8) : Except DecodeError Header :=
  let declared := declaredSize bytes
  if bytes.length < minBufferSize then .error (.bufferTooSmall bytes.length)
  else if declared.toNat < minBufferSize then .error (.declaredSizeTooSmall declared)
  else if bytes.length < declared.toNat then
    .error (.declaredSizeExceedsBuffer declared bytes.length)
  else .ok ⟨declared⟩

/-- Position just after the declared region. -/
def stop (h : Header) : Nat :=
  h.declared.toNat

/-- The window between the header and the declared size. -/
def region (h : Header) (bytes : List UInt8) : Cursor :=
  Cursor.window bytes headerSize h.stop

end Header

end WireTree
