import WireTree.Proofs.ItemSequences

/-!
# Numbers that tell where they end

Writing, measuring and reading a variable-width number, all at once.

* `Varint.Form n bs` are the bytes that may stand for a number: its own byte, or a marker and a word
  of any width that holds it.

A cursor at which there are bytes faces exactly these, so what reading recognises is said of every
cursor. One without bytes may stand past its own stop, and there every request is refused.

Results:
* `read_of_form`: a form is read, whatever follows.
* `form_of_read`: what is read is a form.
* `read_of_cut`: a form that lacks bytes is refused as such.
* **`read_written`**: what is written has the stated size and is read back, no form of the number is
  shorter, and none of them is complete before its last byte.
-/

namespace WireTree

namespace Cursor

/-- Where there are bytes ahead, the cursor is not past its stop, and faces them. -/
theorem eq_facing {c : Cursor} (h : c.rest ≠ []) : c = facing c.pos c.rest := by
  obtain ⟨pos, stop, rest, hlength⟩ := c
  have hpos : 0 < rest.length := List.length_pos_iff.2 h
  have hstop : stop = pos + rest.length := by omega
  simp only [facing, hstop]

end Cursor

namespace Varint

open Cursor (facing ofBytes)

variable {n : UInt64} {bs tail : List UInt8} {c after : Cursor}

/-- A number that is at the front of what is ahead is read, and the cursor stands behind it. -/
theorem read_of_form (h : Form n bs) (hrest : c.rest = bs ++ tail) :
    read c = .ok n (c.advance bs.length) ∧ (c.advance bs.length).rest = tail := by
  have hne : c.rest ≠ [] := by
    rw [hrest]
    exact List.append_ne_nil_of_left_ne_nil (List.length_pos_iff.1 h.length_pos) tail
  rw [Cursor.eq_facing hne, hrest, Cursor.advance_facing]
  exact ⟨recognises_read.eq_ok h c.pos tail, rfl⟩

/-- A cursor without a byte ahead answers with no number. -/
theorem read_of_rest_eq_nil (h : c.rest = []) : read c = .error .endOfBuffer c := by
  have hstop : c.stop ≤ c.pos := by
    rw [← Nat.sub_eq_zero_iff_le, ← c.length_rest, h]
    rfl
  refine bind_of_eq_error (bind_of_eq_error (bind_of_eq_error (Cursor.take_of_lt ?_) _) _) _
  exact Nat.lt_succ_of_le hstop

/-- What is read is a form of the number, and the cursor stands behind it. -/
theorem form_of_read (h : read c = .ok n after) :
    ∃ k ≤ c.remaining, after = c.advance k ∧ Form n (c.rest.take k) := by
  have hne : c.rest ≠ [] := by
    intro hnil
    rw [read_of_rest_eq_nil hnil] at h
    cases h
  have hc := Cursor.eq_facing hne
  rw [hc] at h
  obtain ⟨bs, tail, hrest, rfl, hform⟩ := (recognises_read ..).1 h
  rw [hrest] at hc
  refine ⟨bs.length, ?_, ?_, ?_⟩
  · rw [hc, Cursor.remaining_facing, List.length_append]
    exact Nat.le_add_right ..
  · rw [hc, Cursor.advance_facing]
    rfl
  · rw [hrest, List.take_left]
    exact hform

/-- A number of which the last bytes are missing is refused. -/
theorem read_of_cut {lost : List UInt8} (h : Form n (c.rest ++ lost)) (hlost : lost ≠ []) :
    ∃ after, read c = .error .endOfBuffer after := by
  by_cases hnil : c.rest = []
  · exact ⟨c, read_of_rest_eq_nil hnil⟩
  have hfull := recognises_read.eq_ok h c.pos []
  rw [List.append_nil] at hfull
  rw [Cursor.eq_facing hnil]
  exact Cursor.EndsEarly.refused Cursor.closed_endsEarly.varint hfull hlost

/-- A form is what is read to its last byte. -/
theorem form_iff_read {n : UInt64} {bs : List UInt8} :
    Form n bs ↔ read (ofBytes bs) = .ok n ((ofBytes bs).advance bs.length) := by
  have hrest : (ofBytes bs).rest = bs := by
    rw [Cursor.ofBytes_eq_facing]
    rfl
  constructor
  · intro h
    exact (read_of_form h (hrest.trans (List.append_nil bs).symm)).1
  · intro h
    obtain ⟨k, -, hafter, hform⟩ := form_of_read h
    have hk : bs.length = k := Nat.add_left_cancel (congrArg Cursor.pos hafter)
    rwa [hrest, ← hk, List.take_length] at hform

/-- **Numbers are read back, are as short as can be, and tell where they end.** For every number:

* Writing it to a buffer appends as many bytes as its size says. Wherever these are ahead of a
  cursor, whatever follows, the number is read, and the cursor stands right in front of the rest.
* Where a cursor reads the number, the bytes that it passes are a form of it, of which there are at
  least as many as the size says.
* The forms are the bytes that are read to the last one, padded or not. A cursor that has only the
  front of one ahead refuses it for the bytes that are missing. -/
theorem read_written (n : UInt64) :
    (∀ b : AppendBuffer, ∃ bytes, (b.varint n).pending = b.pending ++ bytes ∧
      bytes.length = size n ∧ ∀ (c : Cursor) (tail : List UInt8), c.rest = bytes ++ tail →
        read c = .ok n (c.advance (size n)) ∧ (c.advance (size n)).rest = tail) ∧
    (∀ c after : Cursor, read c = .ok n after →
      ∃ k ≤ c.remaining, after = c.advance k ∧ Form n (c.rest.take k) ∧ size n ≤ k) ∧
    ∀ bs : List UInt8,
      (Form n bs ↔ read (ofBytes bs) = .ok n ((ofBytes bs).advance bs.length)) ∧
      (Form n bs → ∀ (c : Cursor) (lost : List UInt8), bs = c.rest ++ lost → lost ≠ [] →
        ∃ after, read c = .error .endOfBuffer after) := by
  refine ⟨fun b => ?_, fun c after hread => ?_, fun bs => ⟨form_iff_read, ?_⟩⟩
  · refine ⟨encode n, b.pending_varint n, length_encode n, fun c tail hrest => ?_⟩
    rw [← length_encode]
    exact read_of_form (form_encode n) hrest
  · obtain ⟨k, hk, hafter, hform⟩ := form_of_read hread
    have hsize := size_le_of_form hform
    exact ⟨k, hk, hafter, hform, hsize.trans (List.length_take_le k c.rest)⟩
  · rintro hform c lost rfl hlost
    exact read_of_cut hform hlost

/-- Five is written in one byte. It is also read from three bytes, in front of another one, and not
from the first two of these. -/
theorem read_written_five :
    let padded : List UInt8 := [0xfd, 5, 0]
    let c := ofBytes (padded ++ [9])
    ((AppendBuffer.empty 4).varint 5).pending = [5] ∧
    (ofBytes ([5] ++ [9])).rest = [5] ++ [9] ∧
    read (ofBytes ([5] ++ [9])) = .ok 5 ((ofBytes ([5] ++ [9])).advance 1) ∧
    read c = .ok 5 (c.advance 3) ∧ size 5 ≤ 3 ∧
    Form 5 padded ∧ ∃ after, read (ofBytes [0xfd, 5]) = .error .endOfBuffer after := by
  intro padded c
  obtain ⟨hwritten, hread, hforms⟩ := read_written 5
  obtain ⟨bytes, hpending, -, hback⟩ := hwritten (AppendBuffer.empty 4)
  obtain rfl : bytes = [5] := hpending.symm
  obtain ⟨hfive, -⟩ := hback (ofBytes ([5] ++ [9])) [9] rfl
  have hpadded : read c = .ok 5 (c.advance 3) := rfl
  obtain ⟨k, -, hafter, -, hk⟩ := hread c _ hpadded
  obtain ⟨hform, hcut⟩ := hforms padded
  have hform := hform.2 rfl
  refine ⟨hpending, rfl, hfive, hpadded, ?_, hform, ?_⟩
  · have hthree : 3 = k := Nat.add_left_cancel (congrArg Cursor.pos hafter)
    exact hthree ▸ hk
  · exact hcut hform (ofBytes [0xfd, 5]) [0] rfl (List.cons_ne_nil _ _)

end Varint

end WireTree
