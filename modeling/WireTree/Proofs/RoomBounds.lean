import WireTree.Proofs.EncodedSize
import WireTree.Proofs.EncoderReuse
import WireTree.Proofs.ItemSequences

/-!
# Room that is enough, and no more

How much room a buffer has after it was asked for some, and how much it ever takes.

* `AppendBuffer.Effect` is what a call to an encoder comes to: items are written, a value is
  encoded, room is made, the pending bytes are given up, or a patch is tried. `Call.effect` says
  which, and `AppendBuffer.effect b e` carries it out.
* `Effect.demand pending e` are the pending bytes and those asked for on top of them, where
  `pending` is the number of pending bytes before. Encoding starts with none pending, and what asks
  for nothing has no demand.
* `AppendBuffer.peak b history` is the largest demand of calls one after the other.
* `AppendBuffer.IsMessage history`: the last of these calls leaves nothing pending.
* `AppendBuffer.GrowsFor n b b'`: the capacity of `b'` is that of `b`, or it is explained by the
  chunk size or by a demand of `n` bytes.

A write asks for its bytes run by run, and the last run has the largest demand: the bytes that are
pending behind it. Growth drops what was taken out before, so it counts the pending bytes and the
request and nothing else, however often the buffer was emptied.

Results:
* `growsFor_effect`, `growsFor_calls`: one call grows for its demand, and all of them for the peak.
* `peak_messages_le`: over messages one after the other, the peak is that of a single one.
* **`capacity_bounded`**: room that was made is enough, and no capacity exceeds the chunk size and
  twice the peak.
-/

namespace WireTree

/-! ## Effects -/

namespace AppendBuffer

/-- What can become of a buffer when something is asked of an encoder. -/
inductive Effect where
  /-- Items are written behind the pending bytes. -/
  | write (items : List Item)
  /-- The pending bytes are forgotten, and a value is written and taken out. -/
  | encode (v : Value)
  /-- Room is made for more bytes. -/
  | reserve (n : Nat)
  /-- The pending bytes are forgotten or taken out. -/
  | empty
  /-- A patch is carried out or refused. -/
  | patch (offset : UInt64) (value : BitVec 32)

/-- What a call comes to. -/
def Call.effect : Call → Effect
  | .encode v => .encode v
  | .encodeJson j => .encode (.ofJson j)
  | .putValue v => .write v.pieces
  | .putJson j => .write (Value.ofJson j).pieces
  | .putNull => .write Value.null.pieces
  | .putBool x => .write (Value.bool x).pieces
  | .putInt n => .write (Value.int n).pieces
  | .putUInt n => .write (Value.uint n).pieces
  | .putReal x => .write (Value.real x).pieces
  | .putText s => .write (Value.text s).pieces
  | .putKey s => .write (Value.piecesOfKey s)
  | .putBytes bs => .write (Value.bytes bs).pieces
  | .putArrayHead n => .write [Value.pieceOfTag .array, .varint (UInt64.ofNat n)]
  | .putObjectHead n => .write [Value.pieceOfTag .object, .varint (UInt64.ofNat n)]
  | .op (.put i) => .write [i]
  | .op (.reserve n) => .reserve n
  | .op .reset => .empty
  | .op .flush => .empty
  | .op (.patch offset value) => .patch offset value

/-- The buffer that an effect leaves. -/
def effect (b : AppendBuffer) : Effect → AppendBuffer
  | .write items => b.putAll items
  | .encode v => (b.encode v).2
  | .reserve n => b.reserve n
  | .empty => b.reset
  | .patch offset value => (b.run (.patch offset value)).2

variable {b b' b'' : AppendBuffer} {n n' : Nat}

/-- A call leaves the buffer that its effect leaves. -/
theorem call_eq_effect (b : AppendBuffer) (c : Call) : b.call c = b.effect c.effect := by
  cases c with
  | putValue v => exact putValue_eq_putAll v b
  | putJson j => exact (putJson_eq_putValue j b).trans (putValue_eq_putAll _ b)
  | encodeJson j => exact congrArg Prod.snd (encodeJson_eq_encode b j)
  | putInt n => exact putInt_eq_putAll b n
  | putReal x => exact putReal_eq_putAll b x
  | op o => cases o <;> rfl
  | _ => rfl

namespace Effect

/-- The pending bytes and those asked for on top of them, of which there are `pending` before. -/
def demand (pending : Nat) : Effect → Nat
  | write items => pending + (Item.encodeAll items).length
  | encode v => v.encodedSize
  | reserve n => pending + n
  | empty => 0
  | patch .. => 0

/-- The number of pending bytes behind, of which there are `pending` before. -/
def left (pending : Nat) : Effect → Nat
  | write items => pending + (Item.encodeAll items).length
  | encode _ => 0
  | reserve _ => pending
  | empty => 0
  | patch .. => pending

/-- Nothing stays pending, whatever was. -/
def Empties : Effect → Prop
  | encode _ => True
  | empty => True
  | _ => False

theorem Empties.left_eq {e : Effect} (h : e.Empties) (pending : Nat) : e.left pending = 0 := by
  cases e with
  | encode v => rfl
  | empty => rfl
  | _ => exact h.elim

end Effect

/-! ## The bytes that are pending -/

theorem length_empty (chunk : Nat) : (empty chunk).length = 0 :=
  rfl

theorem length_append (b : AppendBuffer) (bytes : List UInt8) :
    (b.append bytes).length = b.length + bytes.length := by
  rw [← length_pending, pending_append, List.length_append, length_pending]

theorem pending_putAll (b : AppendBuffer) (items : List Item) :
    (b.putAll items).pending = b.pending ++ Item.encodeAll items := by
  have h := pending_puts b items
  rwa [after, List.foldl_map] at h

theorem length_putAll (b : AppendBuffer) (items : List Item) :
    (b.putAll items).length = b.length + (Item.encodeAll items).length := by
  rw [← length_pending, pending_putAll, List.length_append, length_pending]

theorem length_run_patch (b : AppendBuffer) (offset : UInt64) (value : BitVec 32) :
    (b.run (.patch offset value)).2.length = b.length := by
  rw [run]
  cases h : b.patch offset value with
  | error => rfl
  | ok b' =>
    obtain ⟨hend, rfl⟩ := eq_patchAt_of_patch h
    exact congrArg (· - b.start) (size_patchAt hend)

theorem length_effect (b : AppendBuffer) (e : Effect) : (b.effect e).length = e.left b.length := by
  cases e with
  | write items => exact length_putAll b items
  | encode v => exact length_encode b v
  | reserve n =>
    rw [← length_pending]
    exact (congrArg List.length (pending_reserve b n)).trans (length_pending b)
  | empty => exact length_reset b
  | patch offset value => exact length_run_patch b offset value

theorem length_call (b : AppendBuffer) (c : Call) :
    (b.call c).length = c.effect.left b.length := by
  rw [call_eq_effect, length_effect]

/-! ## Growth -/

/-- From `b` to `b'` the buffer has grown, if at all, to a chunk or for a demand of `n` bytes. -/
structure GrowsFor (n : Nat) (b b' : AppendBuffer) : Prop where
  chunk : b'.chunk = b.chunk
  capacity : b'.capacity ≤ max b.capacity (max b.chunk (2 * n))

theorem GrowsFor.refl (n : Nat) (b : AppendBuffer) : GrowsFor n b b :=
  ⟨rfl, Nat.le_max_left _ _⟩

/-- What changes neither chunk size nor capacity is explained by any demand. -/
theorem GrowsFor.of_eq (n : Nat) (hchunk : b'.chunk = b.chunk) (h : b'.capacity = b.capacity) :
    GrowsFor n b b' :=
  ⟨hchunk, h ▸ Nat.le_max_left _ _⟩

theorem GrowsFor.trans (h : GrowsFor n b b') (h' : GrowsFor n b' b'') : GrowsFor n b b'' := by
  have hcapacity := h.capacity
  have hcapacity' := h'.capacity
  rw [h.chunk] at hcapacity'
  exact ⟨h'.chunk.trans h.chunk, by omega⟩

theorem GrowsFor.mono (h : GrowsFor n b b') (hn : n ≤ n') : GrowsFor n' b b' := by
  have hcapacity := h.capacity
  exact ⟨h.chunk, by omega⟩

/-- Growth counts the pending bytes and the request. -/
theorem growsFor_reserve (b : AppendBuffer) (n : Nat) :
    GrowsFor (b.length + n) b (b.reserve n) := by
  unfold reserve
  split
  · rename_i hroom
    refine ⟨rfl, ?_⟩
    have hgrown : (b.grow n hroom).capacity = b.grownCapacity n := rfl
    rw [hgrown, grownCapacity, needed_eq hroom]
    split <;> omega
  · exact .refl _ b

theorem growsFor_append (b : AppendBuffer) (bytes : List UInt8) :
    GrowsFor (b.length + bytes.length) b (b.append bytes) :=
  have h := growsFor_reserve b bytes.length
  ⟨h.chunk, h.capacity⟩

/-- Of runs one after the other, the last one has the largest demand. -/
theorem growsFor_appendAll (b : AppendBuffer) (runs : List (List UInt8)) :
    GrowsFor (b.length + runs.flatten.length) b (b.appendAll runs) := by
  induction runs generalizing b with
  | nil => exact .refl _ b
  | cons run runs ih =>
    have hrun := growsFor_append b run
    have hrest := ih (b.append run)
    rw [length_append, Nat.add_assoc, ← List.length_append, ← List.flatten_cons] at hrest
    rw [List.flatten_cons, List.length_append] at hrest ⊢
    exact (hrun.mono (by omega)).trans hrest

/-- The runs of items are their bytes. -/
theorem flatten_flatMap_runs (items : List Item) :
    (items.flatMap Item.runs).flatten = Item.encodeAll items := by
  -- An empty buffer shows the bytes of both.
  have h := pending_putAll (empty 0) items
  rw [putAll_eq_appendAll, pending_appendAll] at h
  exact List.append_cancel_left h

theorem growsFor_putAll (b : AppendBuffer) (items : List Item) :
    GrowsFor (b.length + (Item.encodeAll items).length) b (b.putAll items) := by
  rw [putAll_eq_appendAll, ← flatten_flatMap_runs]
  exact growsFor_appendAll b _

theorem growsFor_run_patch (b : AppendBuffer) (offset : UInt64) (value : BitVec 32) :
    GrowsFor 0 b (b.run (.patch offset value)).2 := by
  rw [run]
  cases h : b.patch offset value with
  | error => exact .refl 0 b
  | ok b' =>
    obtain ⟨-, rfl⟩ := eq_patchAt_of_patch h
    exact .of_eq 0 rfl rfl

theorem growsFor_reset (b : AppendBuffer) : GrowsFor 0 b b.reset :=
  .of_eq 0 rfl rfl

theorem growsFor_takeFramed (b : AppendBuffer) : GrowsFor 0 b b.takeFramed.2 := by
  rw [takeFramed]
  split
  · have hpatch := growsFor_run_patch b 0 (BitVec.ofNat 32 b.length)
    rw [run] at hpatch
    cases h : b.patch 0 (BitVec.ofNat 32 b.length) with
    | error => exact growsFor_reset b
    | ok b' =>
      rw [h] at hpatch
      exact hpatch.trans (growsFor_reset b')
  · exact growsFor_reset b

/-- Encoding grows for the size of the value, whatever was pending. -/
theorem growsFor_encode (b : AppendBuffer) (v : Value) :
    GrowsFor v.encodedSize b (b.encode v).2 := by
  have hruns := growsFor_appendAll b.reset v.runs
  rw [length_reset, Nat.zero_add, v.length_flatten_runs] at hruns
  rw [encode_eq_appendAll]
  exact (((growsFor_reset b).mono (Nat.zero_le _)).trans hruns).trans
    ((growsFor_takeFramed _).mono (Nat.zero_le _))

/-- A single effect grows for its demand. -/
theorem growsFor_effect (b : AppendBuffer) (e : Effect) :
    GrowsFor (e.demand b.length) b (b.effect e) := by
  cases e with
  | write items => exact growsFor_putAll b items
  | encode v => exact growsFor_encode b v
  | reserve n => exact growsFor_reserve b n
  | empty => exact growsFor_reset b
  | patch offset value => exact growsFor_run_patch b offset value

/-! ## The largest demand -/

/-- The largest demand of calls one after the other. -/
def peak (b : AppendBuffer) : List Call → Nat
  | [] => 0
  | c :: history => max (c.effect.demand b.length) ((b.call c).peak history)

/-- Calls one after the other grow for the largest of their demands. -/
theorem growsFor_calls (b : AppendBuffer) (history : List Call) :
    GrowsFor (b.peak history) b (b.calls history) := by
  induction history generalizing b with
  | nil => exact .refl _ b
  | cons c history ih =>
    have hcall : GrowsFor (c.effect.demand b.length) b (b.call c) :=
      call_eq_effect b c ▸ growsFor_effect b c.effect
    exact (hcall.mono (Nat.le_max_left _ _)).trans ((ih (b.call c)).mono (Nat.le_max_right _ _))

theorem peak_append (b : AppendBuffer) (history history' : List Call) :
    b.peak (history ++ history') = max (b.peak history) ((b.calls history).peak history') := by
  induction history generalizing b with
  | nil => exact (Nat.zero_max _).symm
  | cons c history ih =>
    rw [List.cons_append, peak, ih, peak, Nat.max_assoc]
    rfl

/-- The demands depend on how much is pending, and on nothing else of the buffer. -/
theorem peak_congr (h : b.length = b'.length) (history : List Call) :
    b.peak history = b'.peak history := by
  induction history generalizing b b' with
  | nil => rfl
  | cons c history ih =>
    have hcall : (b.call c).length = (b'.call c).length := by
      rw [length_call, length_call, h]
    rw [peak, peak, h, ih hcall]

/-- Calls of which the last one leaves nothing pending. -/
def IsMessage (history : List Call) : Prop :=
  ∃ front last, history = front ++ [last] ∧ last.effect.Empties

theorem IsMessage.length_calls {history : List Call} (h : IsMessage history) (b : AppendBuffer) :
    (b.calls history).length = 0 := by
  obtain ⟨front, last, rfl, hempties⟩ := h
  rw [calls, List.foldl_append]
  exact (length_call _ last).trans (hempties.left_eq _)

/-- Messages one after the other demand no more than the largest of them, and neither does a part
of one behind them. -/
theorem peak_messages_le {messages : List (List Call)} {part : List Call} {largest : Nat}
    (hmessages : ∀ m ∈ messages, IsMessage m) (chunk : Nat)
    (hlargest : ∀ m ∈ messages, (empty chunk).peak m ≤ largest)
    (hpart : (empty chunk).peak part ≤ largest) (hb : b.length = 0) :
    b.peak (messages.flatten ++ part) ≤ largest := by
  have hnew : ∀ {b : AppendBuffer}, b.length = 0 → ∀ m, b.peak m = (empty chunk).peak m :=
    fun hb m => peak_congr (hb.trans (length_empty chunk).symm) m
  induction messages generalizing b with
  | nil => exact hnew hb part ▸ hpart
  | cons m messages ih =>
    rw [List.flatten_cons, List.append_assoc, peak_append]
    have hfirst : b.peak m ≤ largest := hnew hb m ▸ hlargest m List.mem_cons_self
    -- Behind the message nothing is pending, as it was before.
    have hrest := ih (fun m' h => hmessages m' (List.mem_cons_of_mem m h))
      (fun m' h => hlargest m' (List.mem_cons_of_mem m h))
      ((hmessages m List.mem_cons_self).length_calls b)
    exact Nat.max_le.2 ⟨hfirst, hrest⟩

/-! ## Room that was made -/

/-- There is room for the items together: writing them does not grow the buffer, neither in the end
nor before any of their runs. -/
structure HasRoomFor (b : AppendBuffer) (items : List Item) : Prop where
  fills : Fills b (Item.encodeAll items) (b.putAll items)
  reserve : ∀ done run rest, items.flatMap Item.runs = done ++ run :: rest →
    (b.appendAll done).reserve run.length = b.appendAll done

theorem hasRoomFor {items : List Item} (h : (Item.encodeAll items).length ≤ b.room) :
    HasRoomFor b items := by
  rw [← flatten_flatMap_runs] at h
  refine ⟨?_, fun done run rest hruns => reserve_appendAll hruns h⟩
  rw [putAll_eq_appendAll, ← flatten_flatMap_runs]
  exact fills_appendAll h

/-- **Room that was made is enough, and there is never more than the largest message takes.** After
any calls to an encoder that was created with any chunk size:

* Its capacity is at most the chunk size or twice the peak, which is the largest number of pending
  bytes and of those asked for on top of them.
* When room is made for `n` more bytes, so many are free, and the pending bytes are what they were.
  Items whose bytes are at most as many go into this room one after the other. The start and the
  capacity stay, and the buffer grows before none of their runs.
* If the calls are messages one after the other, and part of one more, the capacity is at most the
  chunk size or twice the peak of a single one of them in a new encoder.

Every operation on the buffer is a call, so this holds between the runs of a longer call as well.
Capacities are numbers of any size, so no growth fails. -/
theorem capacity_bounded (chunk : Nat) (history : List Call) :
    let b := (empty chunk).calls history
    b.capacity ≤ max chunk (2 * (empty chunk).peak history) ∧
    (∀ n, n ≤ (b.reserve n).room ∧ (b.reserve n).pending = b.pending ∧
      ∀ items, (Item.encodeAll items).length ≤ n → HasRoomFor (b.reserve n) items) ∧
    ∀ (messages : List (List Call)) (part : List Call), history = messages.flatten ++ part →
      (∀ m ∈ messages, IsMessage m) → ∀ largest, (∀ m ∈ messages, (empty chunk).peak m ≤ largest) →
        (empty chunk).peak part ≤ largest → b.capacity ≤ max chunk (2 * largest) := by
  intro b
  have hpeak : b.capacity ≤ max chunk (2 * (empty chunk).peak history) := by
    have h := (growsFor_calls (empty chunk) history).capacity
    rwa [← Nat.max_assoc, show (empty chunk).capacity = (empty chunk).chunk from rfl,
      Nat.max_self] at h
  refine ⟨hpeak, fun n => ⟨le_room_reserve b n, pending_reserve b n, fun items hitems => ?_⟩, ?_⟩
  · exact hasRoomFor (hitems.trans (le_room_reserve b n))
  · intro messages part hhistory hmessages largest hlargest hpart
    have hle : (empty chunk).peak history ≤ largest := by
      rw [hhistory]
      exact peak_messages_le hmessages chunk hlargest hpart (length_empty chunk)
    omega

/-- A text of five bytes with its head, again and again in chunks of four: the capacity is never
more than ten, which is twice as many. With another byte pending, room is made for seven: a number
of three bytes and a text of four go into it. -/
theorem capacity_bounded_text :
    let message : List Call := [.putText "abc", .op .flush]
    let messages : List (List Call) := [message, message, message]
    let b := (empty 4).calls (messages.flatten ++ [.putNull])
    let items : List Item := [.varint 300, .text "abcd"]
    ((∀ m ∈ messages, IsMessage m) ∧ (∀ m ∈ messages, (empty 4).peak m ≤ 5) ∧
      (empty 4).peak [.putNull] ≤ 5) ∧
    b.capacity ≤ max 4 (2 * 5) ∧ b.capacity = 10 ∧ b.start = 5 ∧
    (Item.encodeAll items).length ≤ 7 ∧
    7 ≤ (b.reserve 7).room ∧ (b.reserve 7).pending = [0x00] ∧ HasRoomFor (b.reserve 7) items := by
  intro message messages b items
  have hmessage : ∀ m ∈ messages, m = message := by simp [messages]
  have hends : ∀ m ∈ messages, IsMessage m := by
    intro m hm
    rw [hmessage m hm]
    exact ⟨[.putText "abc"], .op .flush, rfl, trivial⟩
  have hpeak : ∀ m ∈ messages, (empty 4).peak m ≤ 5 := by
    intro m hm
    rw [hmessage m hm]
    decide
  have hpart : (empty 4).peak [.putNull] ≤ 5 := by decide
  have hsize : (Item.encodeAll items).length ≤ 7 := by decide
  obtain ⟨-, hroom, hlargest⟩ := capacity_bounded 4 (messages.flatten ++ [.putNull])
  obtain ⟨hfree, hpending, hitems⟩ := hroom 7
  have hcapacity := hlargest messages [.putNull] rfl hends 5 hpeak hpart
  exact ⟨⟨hends, hpeak, hpart⟩, hcapacity, by decide, by decide, hsize, hfree, hpending,
    hitems items hsize⟩

end AppendBuffer

end WireTree
