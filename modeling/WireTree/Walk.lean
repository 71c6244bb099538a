import WireTree.Builder
import WireTree.Header
import WireTree.Item
import WireTree.Options
import WireTree.Tag

/-!
# Walking over a buffer

The reader of the wire form. It goes over the declared region once and tells a builder what it
finds.

* A value is a tag byte and its payload. Words are little-endian, integers narrower than 64 bits are
  extended by their sign or by zeros, and any byte but zero is true.
* Text and bytes are a count and that many bytes. An array is a count and that many values. An
  object is a count and that many pairs of a key, which is a text without a tag, and a value.
* A count is refused where it stands if its items cannot all fit into the rest of the region, each
  taking its least number of bytes: two for a pair and one for anything else.
* A container beyond the nesting limit is refused at its tag, before its count is read. Where the
  depth inside of it would be no machine word, the program stops there instead.
* An error names the place where the piece starts that could not be read. The action also leaves
  the cursor and the builder as they were when it was raised, so that walking can go on from there.
-/

namespace WireTree

/-- Where a walk is, and what its builder has come to. -/
structure Walk.State (σ : Type) where
  cursor : Cursor
  built : σ

/-- An action of a walk: an answer or an error, and in both cases the state it leaves. -/
abbrev Walk (σ α : Type) : Type :=
  EStateM DecodeError (Walk.State σ) α

/-- What is inside of a container: an action that reads each value there, or the reason why it is
not opened. -/
abbrev Walk.Interior (σ ν : Type) : Type :=
  Except Refusal (Walk σ ν)

/-- A reading error as the refusal of the piece that starts at `offset`. -/
def ReadError.refusal (offset : Nat) : ReadError → DecodeError
  | .endOfBuffer => .truncated offset
  | .invalidUtf8 => .invalidUtf8 offset

namespace Walk

variable {σ ν α : Type}

/-- The position of the next byte. -/
def position : Walk σ Nat := fun s =>
  .ok s.cursor.pos s

/-- The number of bytes ahead in the region. -/
def remaining : Walk σ Nat := fun s =>
  .ok s.cursor.remaining s

/-- Reads one piece. -/
def reading (read : Cursor.Read α) : Walk σ α
  | ⟨cursor, built⟩ =>
    match read cursor with
    | .ok x after => .ok x ⟨after, built⟩
    | .error e after => .error (e.refusal cursor.pos) ⟨after, built⟩

/-- Has the builder do something. -/
def building (operation : σ → α × σ) : Walk σ α
  | ⟨cursor, built⟩ =>
    match operation built with
    | (x, built) => .ok x ⟨cursor, built⟩

/-- Reads a count of items that take at least `unit` bytes each. -/
def count (unit : Nat) : Walk σ Nat := do
  let offset ← position
  let n ← reading Varint.read
  if n.toNat * unit ≤ (← remaining) then return n.toNat
  else throw (.truncated offset)

/-- Reads a text without a tag. -/
def text : Walk σ String := do
  reading (Cursor.text (← count 1))

/-- Does `step` a number of times, each time with what the last one answered. -/
def times : Nat → (ν → Walk σ ν) → ν → Walk σ ν
  | 0, _, x => pure x
  | n + 1, step, x => do
    let x ← step x
    times n step x

/-- Reads a count of members that take at least `unit` bytes each, opens the container they go into,
and reads them. -/
def counted (unit : Nat) (opening : Nat → σ → ν × σ) (member : ν → Walk σ ν) : Walk σ ν := do
  let n ← count unit
  let node ← building (opening n)
  times n member node

/-- Reads an element by `inner` and puts it into an array. -/
def element (b : Builder σ ν) (inner : Walk σ ν) (node : ν) : Walk σ ν := do
  let element ← inner
  building (b.append node element)

/-- Reads a key, and by `inner` its value, and puts both into an object. -/
def pair (b : Builder σ ν) (inner : Walk σ ν) (node : ν) : Walk σ ν := do
  let key ← text
  let value ← inner
  building (b.set node key value)

/-- Reads the count and the elements of an array, each element by `inner`. -/
def array (b : Builder σ ν) (inner : Walk σ ν) : Walk σ ν :=
  counted 1 b.array (element b inner)

/-- Reads the count and the pairs of an object, each value by `inner`. -/
def object (b : Builder σ ν) (inner : Walk σ ν) : Walk σ ν :=
  counted 2 b.object (pair b inner)

/-- Reads a tag and its payload. If that is a container, `inner` is what is inside of it. -/
def node (b : Builder σ ν) (o : Options) (inner : Interior σ ν) : Walk σ ν := do
  let offset ← position
  let byte ← reading Cursor.byte
  match Tag.ofByte? byte with
  | some .null => building b.null
  | some .bool => do
    let x ← reading Cursor.byte
    building (b.bool (x != 0))
  | some (.int w) => do
    let x ← reading (Cursor.word w)
    building (b.integer (Int64.ofBitVec (x.signExtend 64)))
  | some (.uint .w64) => do
    let x ← reading (Cursor.word .w64)
    building (b.uinteger (UInt64.ofBitVec x))
  | some (.uint w) => do
    let x ← reading (Cursor.word w)
    building (b.integer (Int64.ofBitVec (x.setWidth 64)))
  | some .single => do
    let x ← reading Cursor.single
    building (b.real x.widen)
  | some .double => do
    let x ← reading Cursor.double
    building (b.real x)
  | some .text => do
    let s ← text
    building (b.text s)
  | some .bytes => do
    let bs ← reading (Cursor.take (← count 1))
    building (b.bytes bs)
  | some .array =>
    match inner with
    | .ok inner => array b inner
    | .error refusal => throw (refusal.error offset)
  | some .object =>
    match inner with
    | .ok inner => object b inner
    | .error refusal => throw (refusal.error offset)
  | none =>
    match o.unknownTags with
    | .reject => throw (.unknownTag byte offset)
    | .null => building b.null

/-- Reads a value in which containers may nest as many levels as given. Those beyond
are not opened for the reason given. -/
def value (b : Builder σ ν) (o : Options) (refusal : Refusal) : Nat → Walk σ ν
  | 0 => node b o (.error refusal)
  | levels + 1 => node b o (.ok (value b o refusal levels))

/-- Reads a value that `depth` containers enclose. -/
def valueAt (b : Builder σ ν) (o : Options) (depth : UInt64) : Walk σ ν :=
  value b o (o.refusal depth) (o.levels depth)

/-- How depths are counted: what is inside of a container is read at the depth that opening it
gives. -/
theorem valueAt_eq_node (b : Builder σ ν) (o : Options) (depth : UInt64) :
    valueAt b o depth = node b o ((o.enter depth).map (valueAt b o)) := by
  cases henter : o.enter depth with
  | ok inner =>
    obtain ⟨hlevels, hrefusal⟩ := Options.levels_of_enter_eq_ok henter
    rw [valueAt, hlevels, hrefusal]
    rfl
  | error refusal =>
    obtain ⟨hlevels, hrefusal⟩ := Options.levels_of_enter_eq_error henter
    rw [valueAt, hlevels, hrefusal]
    rfl

/-- Reads the root value and, if sizes have to be exact, makes sure that it fills the region. -/
def root (b : Builder σ ν) (o : Options) (h : Header) : Walk σ ν := do
  let node ← valueAt b o 0
  let unused ← remaining
  if o.exactSize && unused != 0 then throw (.trailingBytes unused h.declared)
  else return node

end Walk

end WireTree
