import WireTree.LittleEndian
import WireTree.Utf8

/-!
# Cursors

A cursor walks over a window of a byte sequence and never leaves it.

* `Cursor` holds the position of the next byte, the position where the window stops and the bytes
  in between. A window may start past its own stop; it then holds no byte.
* `Cursor.Read α` is a reading action: it answers with a value or a `ReadError`, and in both cases
  with the cursor it leaves.
* Every action asks for its bytes at once. It fails with `ReadError.endOfBuffer`, and does not
  move, unless position plus count is at most the stop. So a request for no bytes at all fails too
  when the window starts past its stop.

Results:
* `Cursor.take_of_le`, `Cursor.take_of_lt`: when a request is granted, and what it then gives.
-/

namespace WireTree

/-- Why bytes could not be read. -/
inductive ReadError where
  | endOfBuffer
  | invalidUtf8
  deriving DecidableEq, Repr

/-- The wording of a reading error. -/
def ReadError.message : ReadError → String
  | endOfBuffer => "unexpected end of buffer"
  | invalidUtf8 => "invalid UTF-8"

/-- A position in a byte sequence, with the bytes from there to the end of the window. -/
structure Cursor where
  /-- Position of the next byte. -/
  pos : Nat
  /-- Position just after the last byte of the window. -/
  stop : Nat
  /-- The bytes of the window that are still ahead. -/
  rest : List UInt8
  length_rest : rest.length = stop - pos

namespace Cursor

/-- The window from `start` to `stop` of `bytes`. A stop past the end of the bytes is moved back
to their end. -/
def window (bytes : List UInt8) (start stop : Nat) : Cursor where
  pos := start
  stop := min stop bytes.length
  rest := (bytes.drop start).take (min stop bytes.length - start)
  length_rest := by
    rw [List.length_take, List.length_drop]
    omega

/-- The window that holds all of `bytes`. -/
def ofBytes (bytes : List UInt8) : Cursor :=
  window bytes 0 bytes.length

/-- The number of bytes ahead. -/
def remaining (c : Cursor) : Nat :=
  c.stop - c.pos

/-- Whether no byte is ahead. -/
def atEnd (c : Cursor) : Bool :=
  decide (c.stop ≤ c.pos)

/-- The cursor `n` bytes further on. -/
def advance (c : Cursor) (n : Nat) : Cursor where
  pos := c.pos + n
  stop := c.stop
  rest := c.rest.drop n
  length_rest := by
    rw [List.length_drop, c.length_rest]
    omega

/-- A reading action. -/
abbrev Read (α : Type) : Type :=
  EStateM ReadError Cursor α

/-- Reads the next `n` bytes. -/
def take (n : Nat) : Read (List UInt8) := fun c =>
  if c.pos + n ≤ c.stop then .ok (c.rest.take n) (c.advance n) else .error .endOfBuffer c

/-- Reads a word. -/
def word (w : Width) : Read (BitVec w.bits) := do
  return w.decode (← take w.bytes)

/-- Reads one byte. -/
def byte : Read UInt8 := do
  return UInt8.ofBitVec (← word .w8)

/-- Reads `n` bytes of UTF-8. Bytes that are missing are noticed before bytes that are no UTF-8,
and the cursor moves only if both are in order. -/
def text (n : Nat) : Read String := fun c =>
  match take n c with
  | .error e c => .error e c
  | .ok bytes after =>
    match Utf8.decode? bytes with
    | some s => .ok s after
    | none => .error .invalidUtf8 c

/-! ## When a request is granted -/

theorem take_of_le {n : Nat} {c : Cursor} (h : c.pos + n ≤ c.stop) :
    take n c = .ok (c.rest.take n) (c.advance n) :=
  if_pos h

theorem take_of_lt {n : Nat} {c : Cursor} (h : c.stop < c.pos + n) :
    take n c = .error .endOfBuffer c :=
  if_neg (Nat.not_le_of_lt h)

theorem atEnd_iff {c : Cursor} : c.atEnd = true ↔ c.remaining = 0 := by
  simp only [atEnd, remaining, decide_eq_true_eq]
  omega

theorem rest_eq_nil_of_atEnd {c : Cursor} (h : c.atEnd = true) : c.rest = [] := by
  rw [← List.length_eq_zero_iff, c.length_rest]
  exact atEnd_iff.1 h

end Cursor

end WireTree
