import WireTree.Error
import WireTree.LittleEndian

/-!
# Append buffers

Output is collected in a buffer of limited room that grows on demand.

* `AppendBuffer.written` are the bytes written since the last growth. Those before `start` have
  been taken out already; those from `start` on are `pending`.
* `reserve n` makes room for `n` more bytes. Growth drops the bytes that were taken out, so that
  `start` becomes zero. The new room is the chunk size if pending bytes and request fit into it,
  and otherwise twice what they need.
* `flush` takes the pending bytes out, `reset` forgets them.
* `patch` overwrites four pending bytes. Where they start and where they end are sums of machine
  words, and a sum that is none stops the program before a byte is changed.

Results:
* `pending_reserve`, `pending_append`, `pending_flush`, `pending_reset`: what each operation does
  to the pending bytes.
* `needed_eq`: growth counts the pending bytes and the request, and nothing else.
* `patch_of_le`, `patch_of_lt`: which patches are carried out, and why the others fail.
-/

namespace WireTree

/-- Bytes written so far, and the room there is for more. -/
structure AppendBuffer where
  /-- The bytes written since the last growth. -/
  written : Array UInt8
  /-- How many of them were taken out. -/
  start : Nat
  /-- How many bytes fit before the buffer has to grow. -/
  capacity : Nat
  /-- The least room that the buffer grows to. -/
  chunk : Nat
  start_le : start ≤ written.size
  size_le : written.size ≤ capacity

namespace AppendBuffer

/-- The chunk size of a buffer for which none is chosen. -/
def defaultChunk : Nat := 4096

/-- An empty buffer with room for one chunk. -/
def empty (chunk : Nat) : AppendBuffer where
  written := #[]
  start := 0
  capacity := chunk
  chunk := chunk
  start_le := Nat.zero_le _
  size_le := Nat.zero_le _

/-- The bytes that were written and not yet taken out. -/
def pending (b : AppendBuffer) : List UInt8 :=
  b.written.toList.drop b.start

/-- The number of pending bytes. -/
def length (b : AppendBuffer) : Nat :=
  b.written.size - b.start

/-- The number of bytes that can be written without growth. -/
def room (b : AppendBuffer) : Nat :=
  b.capacity - b.written.size

/-- What growth has to provide for a request of `n` bytes: the space behind `start`, and as much
of the request as does not fit into the room left. -/
def needed (b : AppendBuffer) (n : Nat) : Nat :=
  (b.capacity - b.start) + (n - b.room)

/-- The capacity after growth for a request of `n` bytes. -/
def grownCapacity (b : AppendBuffer) (n : Nat) : Nat :=
  if b.needed n ≤ b.chunk then b.chunk else b.needed n * 2

theorem needed_eq {b : AppendBuffer} {n : Nat} (h : b.room < n) : b.needed n = b.length + n := by
  have h₁ := b.start_le
  have h₂ := b.size_le
  simp only [needed, room, length] at *
  omega

theorem le_grownCapacity {b : AppendBuffer} {n : Nat} (h : b.room < n) :
    b.length + n ≤ b.grownCapacity n := by
  have := needed_eq h
  unfold grownCapacity
  split <;> omega

/-- Moves the pending bytes to the front of a larger buffer. -/
def grow (b : AppendBuffer) (n : Nat) (h : b.room < n) : AppendBuffer where
  written := b.written.extract b.start b.written.size
  start := 0
  capacity := b.grownCapacity n
  chunk := b.chunk
  start_le := Nat.zero_le _
  size_le := by
    have := le_grownCapacity h
    simp only [length] at this
    rw [Array.size_extract]
    omega

/-- Makes room for `n` more bytes. -/
def reserve (b : AppendBuffer) (n : Nat) : AppendBuffer :=
  if h : b.room < n then b.grow n h else b

theorem le_room_reserve (b : AppendBuffer) (n : Nat) : n ≤ (b.reserve n).room := by
  unfold reserve
  split
  · rename_i h
    have := le_grownCapacity h
    simp only [room, length, grow, Array.size_extract] at *
    omega
  · omega

theorem size_append (xs : Array UInt8) (ys : List UInt8) :
    (xs ++ ys).size = xs.size + ys.length := by
  rw [← Array.length_toList, Array.toList_appendList, List.length_append, Array.length_toList]

/-- Writes bytes behind the pending ones. -/
def append (b : AppendBuffer) (bytes : List UInt8) : AppendBuffer where
  written := (b.reserve bytes.length).written ++ bytes
  start := (b.reserve bytes.length).start
  capacity := (b.reserve bytes.length).capacity
  chunk := (b.reserve bytes.length).chunk
  start_le := by
    have := (b.reserve bytes.length).start_le
    rw [size_append]
    omega
  size_le := by
    have h := le_room_reserve b bytes.length
    have := (b.reserve bytes.length).size_le
    simp only [room] at h
    rw [size_append]
    omega

/-- Forgets the pending bytes. -/
def reset (b : AppendBuffer) : AppendBuffer where
  written := b.written
  start := b.written.size
  capacity := b.capacity
  chunk := b.chunk
  start_le := Nat.le_refl _
  size_le := b.size_le

/-- Takes the pending bytes out. -/
def flush (b : AppendBuffer) : List UInt8 × AppendBuffer :=
  (b.pending, b.reset)

/-- Writes `bytes` over those of `xs` from position `at` on. -/
def overwrite (xs : List UInt8) (position : Nat) (bytes : List UInt8) : List UInt8 :=
  xs.take position ++ bytes ++ xs.drop (position + bytes.length)

theorem length_overwrite {xs : List UInt8} {position : Nat} {bytes : List UInt8}
    (h : position + bytes.length ≤ xs.length) :
    (overwrite xs position bytes).length = xs.length := by
  simp only [overwrite, List.length_append, List.length_take, List.length_drop]
  omega

/-- Writes four bytes over those from an address on. -/
def patchAt (b : AppendBuffer) (address : Nat) (value : BitVec 32)
    (h : address + 4 ≤ b.written.size) : AppendBuffer :=
  have h' : address + (Width.w32.encode value).length ≤ b.written.toList.length := by
    rw [Width.length_encode, Array.length_toList]
    exact h
  { written := (overwrite b.written.toList address (Width.w32.encode value)).toArray
    start := b.start
    capacity := b.capacity
    chunk := b.chunk
    start_le := by
      rw [List.size_toArray, length_overwrite h', Array.length_toList]
      exact b.start_le
    size_le := by
      rw [List.size_toArray, length_overwrite h', Array.length_toList]
      exact b.size_le }

/-- Why four bytes from an address on cannot be patched: the place where they end is no machine
word, or it lies behind what was written. -/
def patchError (address : Nat) : PatchError :=
  if address + 4 < 0x1_0000_0000_0000_0000 then .outside else .overflow

/-- Overwrites the four bytes at `offset` behind the start with `value`. Fails, and changes
nothing, unless their address is a machine word and all four lie before the end of what was
written. -/
def patch (b : AppendBuffer) (offset : UInt64) (value : BitVec 32) :
    Except PatchError AppendBuffer :=
  let address := b.start + offset.toNat
  if h : address < 0x1_0000_0000_0000_0000 ∧ address + 4 ≤ b.written.size then
    .ok (b.patchAt address value h.2)
  else .error (patchError address)

/-! ## What each operation does to the pending bytes -/

theorem length_pending (b : AppendBuffer) : b.pending.length = b.length := by
  simp [pending, length]

@[simp] theorem pending_empty (chunk : Nat) : (empty chunk).pending = [] := rfl

@[simp] theorem pending_reserve (b : AppendBuffer) (n : Nat) :
    (b.reserve n).pending = b.pending := by
  unfold reserve
  split
  · simp only [grow, pending, Array.toList_extract, List.extract, List.drop_zero]
    apply List.take_of_length_le
    simp
  · rfl

@[simp] theorem pending_append (b : AppendBuffer) (bytes : List UInt8) :
    (b.append bytes).pending = b.pending ++ bytes := by
  have h := (b.reserve bytes.length).start_le
  rw [← pending_reserve b bytes.length]
  simp only [append, pending, Array.toList_appendList]
  rw [List.drop_append_of_le_length (by simpa using h)]

@[simp] theorem pending_reset (b : AppendBuffer) : b.reset.pending = [] := by
  simp [reset, pending]

@[simp] theorem pending_flush (b : AppendBuffer) : b.flush = (b.pending, b.reset) := rfl

/-! ## What a patch does -/

section
variable {b b' : AppendBuffer} {offset : UInt64} (value : BitVec 32)

theorem size_patchAt {address : Nat} {value : BitVec 32} (h : address + 4 ≤ b.written.size) :
    (b.patchAt address value h).written.size = b.written.size := by
  have h' : address + (Width.w32.encode value).length ≤ b.written.toList.length := by
    rw [Width.length_encode, Array.length_toList]
    exact h
  rw [patchAt, List.size_toArray, length_overwrite h', Array.length_toList]

/-- A patch that ends in the buffer is carried out at its address, if that is a machine word. -/
theorem patch_of_le (haddress : b.start + offset.toNat < 0x1_0000_0000_0000_0000)
    (hend : b.start + offset.toNat + 4 ≤ b.written.size) :
    b.patch offset value = .ok (b.patchAt (b.start + offset.toNat) value hend) :=
  dif_pos ⟨haddress, hend⟩

/-- A patch that does not end in the buffer fails. -/
theorem patch_of_lt (h : b.written.size < b.start + offset.toNat + 4) :
    b.patch offset value = .error (patchError (b.start + offset.toNat)) :=
  dif_neg fun hfit => Nat.not_lt_of_le hfit.2 h

variable {value}

/-- A patch that is carried out ends in the buffer. -/
theorem eq_patchAt_of_patch (h : b.patch offset value = .ok b') :
    ∃ hend, b' = b.patchAt (b.start + offset.toNat) value hend := by
  simp only [patch] at h
  split at h
  · rename_i hfit
    cases h
    exact ⟨hfit.2, rfl⟩
  · cases h

end

end AppendBuffer

end WireTree
