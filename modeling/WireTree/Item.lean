import WireTree.Varint
import WireTree.Real.Binary

/-!
# Typed items

The pieces that buffers are made of, and the two directions they travel in.

* An `Item` is a word taken as unsigned or signed, a real of 32 or 64 bits, a run of bytes, a text
  or a variable-width number.
* Its `Shape` is what a reader has to know beforehand: the kind, and the length of bytes and text.
* `Item.encode` are its bytes, `Cursor.item` reads it and `AppendBuffer.put` writes it.

Results:
* `pending_put`: writing an item appends exactly its bytes.
-/

namespace WireTree

/-- A piece of a buffer. -/
inductive Item where
  | unsigned (w : Width) (x : BitVec w.bits)
  | signed (w : Width) (x : BitVec w.bits)
  | single (x : Binary32)
  | double (x : Binary64)
  | bytes (bs : List UInt8)
  | text (s : String)
  | varint (n : UInt64)

/-- What has to be known of an item to read it. -/
inductive Shape where
  | unsigned (w : Width)
  | signed (w : Width)
  | single
  | double
  | bytes (length : Nat)
  | text (length : Nat)
  | varint
  deriving DecidableEq, Repr

namespace Item

/-- The shape under which an item is read back. -/
def shape : Item → Shape
  | unsigned w _ => .unsigned w
  | signed w _ => .signed w
  | single _ => .single
  | double _ => .double
  | bytes bs => .bytes bs.length
  | text s => .text s.utf8ByteSize
  | varint _ => .varint

/-- The bytes of an item. -/
def encode : Item → List UInt8
  | unsigned w x => w.encode x
  | signed w x => w.encode x
  | single x => Width.w32.encode x.bits
  | double x => Width.w64.encode x.bits
  | bytes bs => bs
  | text s => Utf8.encode s
  | varint n => Varint.encode n

end Item

namespace Cursor

/-- Reads a real of 32 bits. -/
def single : Read Binary32 := do
  return ⟨← word .w32⟩

/-- Reads a real of 64 bits. -/
def double : Read Binary64 := do
  return ⟨← word .w64⟩

/-- Reads an item of the given shape. -/
def item : Shape → Read Item
  | .unsigned w => do return .unsigned w (← word w)
  | .signed w => do return .signed w (← word w)
  | .single => do return .single (← single)
  | .double => do return .double (← double)
  | .bytes n => do return .bytes (← take n)
  | .text n => do return .text (← text n)
  | .varint => do return .varint (← Varint.read)

end Cursor

namespace AppendBuffer

/-- Writes an item. -/
def put (b : AppendBuffer) : Item → AppendBuffer
  | .varint n => b.varint n
  | i => b.append i.encode

/-- Writing an item appends exactly its bytes. -/
@[simp] theorem pending_put (b : AppendBuffer) (i : Item) :
    (b.put i).pending = b.pending ++ i.encode := by
  cases i <;> simp [put, Item.encode]

/-- What can be done with a buffer. -/
inductive Op where
  | put (i : Item)
  | reserve (n : Nat)
  | reset
  | flush
  | patch (offset : UInt64) (value : BitVec 32)

/-- What an operation answers: nothing, the bytes taken out, or that a patch was refused. -/
inductive Outcome where
  | done
  | flushed (bytes : List UInt8)
  | refused
  deriving DecidableEq, Repr

/-- Carries out an operation. -/
def run (b : AppendBuffer) : Op → Outcome × AppendBuffer
  | .put i => (.done, b.put i)
  | .reserve n => (.done, b.reserve n)
  | .reset => (.done, b.reset)
  | .flush => (.flushed b.flush.1, b.flush.2)
  | .patch offset value =>
    match b.patch offset value with
    | .ok b' => (.done, b')
    | .error _ => (.refused, b)

end AppendBuffer

end WireTree
