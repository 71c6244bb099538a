import WireTree.Proofs.CursorRuns
import WireTree.Proofs.ShortWindows

/-!
# Items in a row

What an append buffer makes of typed items, and what a cursor makes of it again.

* `AppendBuffer.after b ops` is the buffer that operations one after the other leave.
* `Item.encodeAll items` are the bytes of items in a row. Nothing stands between them, so a reader
  has to know the shapes.

No item is the front of another one of its shape. So a request that lacks bytes is refused as such:
the cut never makes a shorter number of a longer one, and the front of a text is not looked at.

Results:
* `flushed_puts`: what was written since the buffer was last emptied is taken out.
* `askAll_encodeAll`: the items are read back, whatever follows.
* `askAll_cut`: from fewer bytes they are read back up to one that meets the end.
* **`items_read_back`**: so it is with a buffer of any chunk size that was used before.
-/

namespace WireTree

/-- The bytes of items in a row. -/
def Item.encodeAll (items : List Item) : List UInt8 :=
  items.flatMap encode

theorem Item.encodeAll_cons (i : Item) (items : List Item) :
    encodeAll (i :: items) = i.encode ++ encodeAll items :=
  List.flatMap_cons

/-! ## Writing -/

namespace AppendBuffer

/-- The buffer that operations one after the other leave. -/
def after (b : AppendBuffer) (ops : List Op) : AppendBuffer :=
  ops.foldl (fun b op => (b.run op).2) b

/-- Nothing is pending if the last operation has emptied the buffer, or if there was none. -/
theorem pending_after {b : AppendBuffer} {history : List Op} (hb : b.pending = [])
    (hlast : ∀ op ∈ history.getLast?, op = .flush ∨ op = .reset) :
    (b.after history).pending = [] := by
  obtain rfl | ⟨front, last, rfl⟩ := history.eq_nil_or_concat
  · exact hb
  · rw [List.concat_eq_append] at hlast ⊢
    rw [after, List.foldl_append]
    obtain rfl | rfl := hlast last List.getLast?_concat
    · exact pending_reset _
    · exact pending_reset _

theorem pending_puts (b : AppendBuffer) (items : List Item) :
    (b.after (items.map .put)).pending = b.pending ++ Item.encodeAll items := by
  induction items generalizing b with
  | nil => exact (List.append_nil _).symm
  | cons i items ih =>
    refine (ih (b.put i)).trans ?_
    rw [pending_put, List.append_assoc, Item.encodeAll_cons]

theorem flushed_puts {b : AppendBuffer} (hb : b.pending = []) (items : List Item) :
    ((b.after (items.map .put)).run .flush).1 = .flushed (Item.encodeAll items) := by
  rw [run, pending_flush, pending_puts, hb, List.nil_append]

end AppendBuffer

/-! ## Reading -/

namespace Cursor

theorem ofBytes_eq_facing (bytes : List UInt8) : ofBytes bytes = facing 0 bytes := by
  simp only [ofBytes, window, facing, Nat.min_self, Nat.sub_zero, Nat.zero_add, List.drop_zero,
    List.take_length]

/-- An item is read back, whatever follows. -/
theorem item_encode (i : Item) (pos : Nat) (tail : List UInt8) :
    item i.shape (facing pos (i.encode ++ tail)) =
      .ok i (facing (pos + i.encode.length) tail) := by
  cases i with
  | unsigned w x =>
    exact ((recognises_word w).map (Item.unsigned w)).eq_ok ⟨x, rfl, rfl⟩ pos tail
  | signed w x => exact ((recognises_word w).map (Item.signed w)).eq_ok ⟨x, rfl, rfl⟩ pos tail
  | single x => exact (recognises_single.map Item.single).eq_ok ⟨x, rfl, rfl⟩ pos tail
  | double x => exact (recognises_double.map Item.double).eq_ok ⟨x, rfl, rfl⟩ pos tail
  | bytes bs =>
    exact ((recognises_take bs.length).map Item.bytes).eq_ok ⟨bs, rfl, rfl, rfl⟩ pos tail
  | text s =>
    have hbytes : Utf8.encode s = Utf8.encode s ∧ (Utf8.encode s).length = s.utf8ByteSize :=
      ⟨rfl, Utf8.length_encode s⟩
    exact ((recognises_text s.utf8ByteSize).map Item.text).eq_ok ⟨s, rfl, hbytes⟩ pos tail
  | varint n =>
    have hform := Varint.form_encode n
    exact (Varint.recognises_read.map Item.varint).eq_ok ⟨n, rfl, hform⟩ pos tail

theorem Closed.item {Q : {α : Type} → Read α → Prop} (h : Closed Q) (s : Shape) : Q (item s) := by
  cases s with
  | unsigned w => exact h.bind (h.word w) fun _ => h.pure _
  | signed w => exact h.bind (h.word w) fun _ => h.pure _
  | single => exact h.bind h.single fun _ => h.pure _
  | double => exact h.bind h.double fun _ => h.pure _
  | bytes n => exact h.bind (h.take n) fun _ => h.pure _
  | text n => exact h.bind (h.text n) fun _ => h.pure _
  | varint => exact h.bind h.varint fun _ => h.pure _

/-- The front of an item is refused for the bytes that it lacks. -/
theorem item_cut {i : Item} {front lost : List UInt8} (hcut : i.encode = front ++ lost)
    (hlost : lost ≠ []) (pos : Nat) :
    ∃ after, item i.shape (facing pos front) = .error .endOfBuffer after := by
  have hfull := item_encode i pos []
  rw [List.append_nil, hcut] at hfull
  exact EndsEarly.refused (closed_endsEarly.item i.shape) hfull hlost

/-- Items in a row are read back, whatever follows. -/
theorem askAll_encodeAll (items : List Item) (pos : Nat) (tail : List UInt8) :
    askAll (facing pos (Item.encodeAll items ++ tail)) (items.map Item.shape) =
      (items.map .ok, facing (pos + (Item.encodeAll items).length) tail) := by
  induction items generalizing pos with
  | nil => rfl
  | cons i items ih =>
    have hask := ask_of_eq_ok (item_encode i pos (Item.encodeAll items ++ tail))
    rw [Item.encodeAll_cons, List.append_assoc, List.map_cons, askAll_cons hask, ih,
      List.length_append, Nat.add_assoc]
    rfl

/-- Without the last bytes, items in a row are read back up to one that meets the end. -/
theorem askAll_cut {items : List Item} {front lost : List UInt8}
    (hcut : Item.encodeAll items = front ++ lost) (hlost : lost ≠ []) (pos : Nat) :
    ∃ done i more later, items = done ++ i :: more ∧
      (askAll (facing pos front) (items.map Item.shape)).1 =
        done.map .ok ++ .error .endOfBuffer :: later := by
  induction items generalizing pos front with
  | nil => exact absurd (List.append_eq_nil_iff.1 hcut.symm).2 hlost
  | cons i items ih =>
    -- Either the first item is there as a whole, or the cut is inside of it.
    have hplace : (∃ front', front = i.encode ++ front' ∧ Item.encodeAll items = front' ++ lost) ∨
        ∃ lost', lost' ≠ [] ∧ i.encode = front ++ lost' := by
      rw [Item.encodeAll_cons] at hcut
      obtain ⟨front', hfront, hrest⟩ | ⟨lost', hitem, hrest⟩ := List.append_eq_append_iff.1 hcut
      · exact .inl ⟨front', hfront, hrest⟩
      obtain rfl | hne := eq_or_ne lost' []
      · exact .inl ⟨[], by simpa using hitem.symm, hrest.symm⟩
      · exact .inr ⟨lost', hne, hitem⟩
    obtain ⟨front', rfl, hrest⟩ | ⟨lost', hne, hitem⟩ := hplace
    · obtain ⟨done, j, more, later, rfl, hanswers⟩ := ih hrest (pos + i.encode.length)
      refine ⟨i :: done, j, more, later, rfl, ?_⟩
      rw [List.map_cons, askAll_cons (ask_of_eq_ok (item_encode i pos front')), hanswers]
      rfl
    · obtain ⟨after, hitem⟩ := item_cut hitem hne pos
      refine ⟨[], i, items, (askAll after (items.map Item.shape)).1, rfl, ?_⟩
      rw [List.map_cons, askAll_cons (ask_of_eq_error hitem)]
      rfl

/-- **Items in a row are read back.** With a buffer of any chunk size, after any operations that
have emptied it at last, writing items and flushing takes out bytes such that, with the shapes of
the items:

* A reader of these bytes, whatever follows them, answers with the items and stands behind them.
* A reader of any fewer of these bytes answers with the items up to one for which it says that it
  has met the end of the buffer. -/
theorem items_read_back (chunk : Nat) (history : List AppendBuffer.Op) (items : List Item)
    (hlast : ∀ op ∈ history.getLast?, op = .flush ∨ op = .reset) :
    let b := (AppendBuffer.empty chunk).after history
    let shapes := items.map Item.shape
    ∃ bytes, ((b.after (items.map .put)).run .flush).1 = .flushed bytes ∧
      (∀ tail, askAll (ofBytes (bytes ++ tail)) shapes =
        (items.map .ok, facing bytes.length tail)) ∧
      ∀ n < bytes.length, ∃ done i more later, items = done ++ i :: more ∧
        (askAll (ofBytes (bytes.take n)) shapes).1 =
          done.map .ok ++ .error .endOfBuffer :: later := by
  intro b shapes
  have hb : b.pending = [] := AppendBuffer.pending_after rfl hlast
  refine ⟨_, AppendBuffer.flushed_puts hb items, fun tail => ?_, fun n hn => ?_⟩
  · rw [ofBytes_eq_facing, askAll_encodeAll, Nat.zero_add]
  · rw [ofBytes_eq_facing]
    have hlost : (Item.encodeAll items).drop n ≠ [] := by
      rw [Ne, List.drop_eq_nil_iff]
      omega
    exact askAll_cut (List.take_append_drop n _).symm hlost 0

/-- A number with a marker and a text of one letter in two bytes, written behind a byte that was
forgotten: the letter without its second byte is no text, and is refused for the byte that is
missing. -/
theorem items_read_back_cut_letter :
    let history : List AppendBuffer.Op := [.put (.unsigned .w8 7), .reset]
    let items : List Item := [.varint 300, .text "é"]
    let bytes : List UInt8 := [0xfd, 0x2c, 0x01, 0xc3, 0xa9]
    let b := (AppendBuffer.empty 2).after history
    (∀ op ∈ history.getLast?, op = .flush ∨ op = .reset) ∧
    ((b.after (items.map .put)).run .flush).1 = .flushed bytes ∧
    askAll (ofBytes (bytes ++ [9])) [.varint, .text 2] = (items.map .ok, facing 5 [9]) ∧
    (askAll (ofBytes (bytes.take 4)) [.varint, .text 2]).1 =
      [.ok (.varint 300), .error .endOfBuffer] := by
  intro history items bytes b
  have hlast : ∀ op ∈ history.getLast?, op = .flush ∨ op = .reset := by
    rintro _ ⟨⟩
    exact .inr rfl
  obtain ⟨bytes', hflushed, hread, -⟩ := items_read_back 2 history items hlast
  have hbytes : ((b.after (items.map .put)).run .flush).1 = .flushed bytes := by decide
  obtain rfl : bytes' = bytes := AppendBuffer.Outcome.flushed.inj (hflushed.symm.trans hbytes)
  exact ⟨hlast, hbytes, hread [9], rfl⟩

end Cursor

end WireTree
