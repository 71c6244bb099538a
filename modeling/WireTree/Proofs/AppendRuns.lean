import WireTree.Proofs.Body

/-!
# Runs of bytes and the room for them

What writing asks of the room of a buffer.

* Bytes reach a buffer in runs, each of which makes room for itself before it is written. An item is
  one run, except a variable-width number with a marker, whose word is a run of its own. `Item.runs`
  are the runs of an item, and `AppendBuffer.appendAll b runs` writes runs one after the other.
* `AppendBuffer.Fills b bs b'`: from `b` to `b'`, the bytes `bs` went into the room of `b`. The
  start and the capacity are those of `b`.

A buffer grows exactly when a run does not fit into the room, and each run that does takes its own
length away from the room. So the sum of the lengths decides about all of them.

Results:
* `put_eq_appendAll`: writing an item is writing its runs.
* `fills_appendAll`: runs for which there is room together all go into it.
* **`reserve_appendAll`**: and before none of them the buffer grows.
-/

namespace WireTree

/-! ## Runs of items -/

/-- The runs of the narrowest form of a number: its first byte, then the announced word. -/
def Varint.runs (n : UInt64) : List (List UInt8) :=
  match narrowest? n with
  | none => [[n.toUInt8]]
  | some w => [[marker w], w.encode (n.toBitVec.setWidth w.bits)]

/-- The runs in which an item is written. -/
def Item.runs : Item → List (List UInt8)
  | varint n => Varint.runs n
  | i => [i.encode]

namespace AppendBuffer

variable {b b' b'' : AppendBuffer} {bs bs' : List UInt8} {runs : List (List UInt8)} {n : Nat}

/-- The buffer that runs of bytes leave, one after the other. -/
def appendAll (b : AppendBuffer) (runs : List (List UInt8)) : AppendBuffer :=
  runs.foldl append b

theorem appendAll_append (b : AppendBuffer) (runs runs' : List (List UInt8)) :
    b.appendAll (runs ++ runs') = (b.appendAll runs).appendAll runs' :=
  List.foldl_append

theorem pending_appendAll (b : AppendBuffer) (runs : List (List UInt8)) :
    (b.appendAll runs).pending = b.pending ++ runs.flatten := by
  induction runs generalizing b with
  | nil => exact (List.append_nil _).symm
  | cons run runs ih =>
    refine (ih (b.append run)).trans ?_
    rw [pending_append, List.append_assoc, List.flatten_cons]

theorem varint_eq_appendAll (b : AppendBuffer) (n : UInt64) :
    b.varint n = b.appendAll (Varint.runs n) := by
  rw [varint, Varint.runs]
  cases Varint.narrowest? n <;> rfl

/-- Writing an item is writing its runs. -/
theorem put_eq_appendAll (b : AppendBuffer) (i : Item) : b.put i = b.appendAll i.runs := by
  cases i with
  | varint n => exact varint_eq_appendAll b n
  | _ => rfl

/-! ## Filling the room -/

theorem reserve_of_le (h : n ≤ b.room) : b.reserve n = b :=
  dif_neg (Nat.not_lt_of_le h)

/-- The buffer `b'` is `b` with `bs` in its room. -/
structure Fills (b : AppendBuffer) (bs : List UInt8) (b' : AppendBuffer) : Prop where
  written : b'.written.toList = b.written.toList ++ bs
  start : b'.start = b.start
  capacity : b'.capacity = b.capacity

theorem Fills.refl (b : AppendBuffer) : Fills b [] b :=
  ⟨(List.append_nil _).symm, rfl, rfl⟩

theorem Fills.trans (h : Fills b bs b') (h' : Fills b' bs' b'') : Fills b (bs ++ bs') b'' := by
  refine ⟨?_, h'.start.trans h.start, h'.capacity.trans h.capacity⟩
  rw [h'.written, h.written, List.append_assoc]

theorem Fills.size (h : Fills b bs b') : b'.written.size = b.written.size + bs.length := by
  rw [← Array.length_toList, h.written, List.length_append, Array.length_toList]

/-- What goes into the room is taken away from it. -/
theorem Fills.room (h : Fills b bs b') : b'.room = b.room - bs.length := by
  rw [AppendBuffer.room, h.size, h.capacity, AppendBuffer.room, Nat.sub_sub]

/-- A run for which there is room goes into it. -/
theorem fills_append (h : bs.length ≤ b.room) : Fills b bs (b.append bs) := by
  have hreserve := reserve_of_le h
  refine ⟨?_, ?_, ?_⟩
  · show ((b.reserve bs.length).written ++ bs).toList = _
    rw [hreserve, Array.toList_appendList]
  · show (b.reserve bs.length).start = _
    rw [hreserve]
  · show (b.reserve bs.length).capacity = _
    rw [hreserve]

/-- Runs for which there is room together go into it one after the other. -/
theorem fills_appendAll (h : runs.flatten.length ≤ b.room) :
    Fills b runs.flatten (b.appendAll runs) := by
  induction runs generalizing b with
  | nil => exact .refl b
  | cons run runs ih =>
    rw [List.flatten_cons, List.length_append] at h
    -- The first run takes its length away from the room, and the others fit into what is left.
    have hrun : Fills b run (b.append run) := fills_append (by omega)
    have hrest : runs.flatten.length ≤ (b.append run).room := by
      rw [hrun.room]
      omega
    exact hrun.trans (ih hrest)

/-- **Where there is room for all runs, the buffer grows before none of them.** -/
theorem reserve_appendAll {done rest : List (List UInt8)} {run : List UInt8}
    (hruns : runs = done ++ run :: rest) (h : runs.flatten.length ≤ b.room) :
    (b.appendAll done).reserve run.length = b.appendAll done := by
  rw [hruns, List.flatten_append, List.flatten_cons, List.length_append, List.length_append] at h
  have hdone : Fills b done.flatten (b.appendAll done) := fills_appendAll (by omega)
  refine reserve_of_le ?_
  rw [hdone.room]
  omega

end AppendBuffer

end WireTree
