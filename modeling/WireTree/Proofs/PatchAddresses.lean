import WireTree.Item

/-!
# Where a patch lands

The outcome of a patch at every offset that a machine word can hold.

* `AppendBuffer.Overwritten b b' position bytes`: the buffers differ in the bytes from `position` on
  only, which are `bytes` in the second. The start and the end are the same, and so is the room.
* `AppendBuffer.AllOrNothing b offset value`: the patch overwrites the four pending bytes at the
  offset, or it is refused because there are not as many.

The place where a patch starts is the sum of the start and the offset, and it ends four bytes behind
that. An offset that is too large for the pending bytes leads behind all that was written, as long
as the sums are machine words. Where they are not, the program is stopped by the sum itself. So in
no case does a patch get in front of the start, to bytes that were taken out.

Results:
* `run_patch_of_le`, `run_patch_of_lt`: a patch overwrites four bytes and changes nothing else, or
  it is refused and changes nothing.
* **`patch_outcome`**: every patch is all or nothing, whatever its offset.
-/

namespace WireTree.AppendBuffer

/-! ## Overwriting -/

section
variable {xs bytes : List UInt8} {position i : Nat} (h : position + bytes.length ≤ xs.length)
include h

theorem getElem?_overwrite_inside (hi : i < bytes.length) :
    (overwrite xs position bytes)[position + i]? = bytes[i]? := by
  have hlen : (xs.take position).length = position := List.length_take_of_le (by omega)
  rw [overwrite, List.append_assoc, List.getElem?_append_right (by omega), hlen,
    Nat.add_sub_cancel_left, List.getElem?_append_left hi]

theorem getElem?_overwrite_outside (hi : i < position ∨ position + bytes.length ≤ i) :
    (overwrite xs position bytes)[i]? = xs[i]? := by
  have hlen : (xs.take position).length = position := List.length_take_of_le (by omega)
  rw [overwrite, List.append_assoc]
  rcases hi with hi | hi
  · rw [List.getElem?_append_left (by omega), List.getElem?_take, if_pos hi]
  · rw [List.getElem?_append_right (by omega), hlen, List.getElem?_append_right (by omega),
      List.getElem?_drop]
    congr 1
    omega

end

/-- The second buffer has `bytes` from `position` on, and is the first one apart from that. -/
structure Overwritten (b b' : AppendBuffer) (position : Nat) (bytes : List UInt8) : Prop where
  start : b'.start = b.start
  size : b'.written.size = b.written.size
  capacity : b'.capacity = b.capacity
  chunk : b'.chunk = b.chunk
  inside : ∀ i < bytes.length, b'.written[position + i]? = bytes[i]?
  outside : ∀ i, i < position ∨ position + bytes.length ≤ i → b'.written[i]? = b.written[i]?

variable {b : AppendBuffer} {offset : UInt64}

/-- A patch that ends in the buffer is carried out at its address. -/
theorem run_patch_of_le (value : BitVec 32)
    (haddress : b.start + offset.toNat < 0x1_0000_0000_0000_0000)
    (hend : b.start + offset.toNat + 4 ≤ b.written.size) :
    ∃ b', b.run (.patch offset value) = (.done, b') ∧
      Overwritten b b' (b.start + offset.toNat) (Width.w32.encode value) := by
  have hfit : b.start + offset.toNat + (Width.w32.encode value).length ≤
      b.written.toList.length := by
    rw [Width.length_encode, Array.length_toList]
    exact hend
  rw [run, patch_of_le value haddress hend]
  refine ⟨_, rfl, rfl, size_patchAt hend, rfl, rfl, fun i hi => ?_, fun i hi => ?_⟩
  · rw [patchAt, List.getElem?_toArray]
    exact getElem?_overwrite_inside hfit hi
  · rw [patchAt, List.getElem?_toArray, getElem?_overwrite_outside hfit hi, Array.getElem?_toList]

/-- Every other patch is refused, and leaves the buffer as it was. -/
theorem run_patch_of_lt (value : BitVec 32) (h : b.written.size < b.start + offset.toNat + 4) :
    b.run (.patch offset value) = (.refused, b) := by
  rw [run, patch_of_lt value h]

/-! ## Offsets -/

/-- What a patch is for: if it stays inside the pending bytes, it overwrites four of them, and if
not, it is refused. -/
structure AllOrNothing (b : AppendBuffer) (offset : UInt64) (value : BitVec 32) : Prop where
  carried : offset.toNat + 4 ≤ b.length → ∃ b', b.run (.patch offset value) = (.done, b') ∧
    Overwritten b b' (b.start + offset.toNat) (Width.w32.encode value)
  refused : b.length < offset.toNat + 4 → b.run (.patch offset value) = (.refused, b)

/-- **Every patch is all or nothing**, in every buffer whose size is a machine word. It is carried
out exactly if four bytes are pending from its offset on, with no limit to the sums in this
comparison. Then these four become the bytes of the value. The other pending bytes, those that were
taken out, the start and the end stay as they are.

At every other offset the patch stops the program, and leaves the buffer as it was. If the place
where it would end is a machine word, it is refused for lying outside of what was written. If it is
none, the sum overflows. -/
theorem patch_outcome (b : AppendBuffer) (offset : UInt64) (value : BitVec 32)
    (hsize : b.written.size < 0x1_0000_0000_0000_0000) :
    ((b.run (.patch offset value)).1 = .done ↔ offset.toNat + 4 ≤ b.length) ∧
    AllOrNothing b offset value ∧
    (b.length < offset.toNat + 4 → b.patch offset value =
      .error (if b.start + offset.toNat + 4 < 0x1_0000_0000_0000_0000 then .outside
        else .overflow)) := by
  have hstart := b.start_le
  have hall : AllOrNothing b offset value := by
    refine ⟨fun hfit => ?_, fun hfit => ?_⟩
    · rw [length] at hfit
      exact run_patch_of_le value (by omega) (by omega)
    · rw [length] at hfit
      exact run_patch_of_lt value (by omega)
  refine ⟨⟨fun hdone => ?_, fun hfit => ?_⟩, hall, fun hfit => ?_⟩
  · obtain hfit | hfit := Nat.lt_or_ge b.length (offset.toNat + 4)
    · rw [hall.refused hfit] at hdone
      cases hdone
    · exact hfit
  · obtain ⟨b', hrun, -⟩ := hall.carried hfit
    rw [hrun]
  · rw [length] at hfit
    exact patch_of_lt value (by omega)

/-- Two bytes are taken out, and four are pending. At the front of these a patch is carried out. One
byte further on it is refused, and so it is at the largest offset, where one that wraps around would
end among the pending bytes. -/
theorem patch_outcome_in_front :
    let b := (((empty 16).put (.unsigned .w16 0x1111)).flush.2).put (.unsigned .w32 0x2222_2222)
    b.written.size < 0x1_0000_0000_0000_0000 ∧ b.start = 2 ∧ b.length = 4 ∧
      (∃ b', b.run (.patch 0 0xffff_ffff) = (.done, b') ∧
        Overwritten b b' 2 [0xff, 0xff, 0xff, 0xff]) ∧
      (b.run (.patch 1 0xffff_ffff) = (.refused, b) ∧
        b.patch 1 0xffff_ffff = .error .outside) ∧
      b.run (.patch 0xffff_ffff_ffff_ffff 0xffff_ffff) = (.refused, b) ∧
      b.patch 0xffff_ffff_ffff_ffff 0xffff_ffff = .error .overflow := by
  intro b
  have hsize : b.written.size < 0x1_0000_0000_0000_0000 := by decide
  have hfour : b.length = 4 := by decide
  obtain ⟨-, hfront, -⟩ := patch_outcome b 0 0xffff_ffff hsize
  obtain ⟨-, hnext, houtside⟩ := patch_outcome b 1 0xffff_ffff hsize
  obtain ⟨-, hlast, hoverflow⟩ := patch_outcome b 0xffff_ffff_ffff_ffff 0xffff_ffff hsize
  have hcarried := hfront.carried (by decide)
  have houtside := houtside (by decide)
  have hoverflow := hoverflow (by decide)
  rw [if_pos (by decide)] at houtside
  rw [if_neg (by decide)] at hoverflow
  exact ⟨hsize, by decide, hfour, hcarried, ⟨hnext.refused (by decide), houtside⟩,
    hlast.refused (by decide), hoverflow⟩

end WireTree.AppendBuffer
