import WireTree.Proofs.JsonRoundTrip

/-!
# Encoders that are used again

Whatever was done with an encoder before, it encodes like a new one.

* `AppendBuffer.Call` is what can be asked of an encoder: to encode a tree, to write a tree or a
  piece of one and leave it pending, and to carry out an operation on its buffer.
* `AppendBuffer.calls b history` is the buffer that calls one after the other leave.

Encoding starts with a reset, so the start is at the end of what is there: somewhere in the buffer
if it is not full, and at zero as soon as it grows. The header stands at the start in both cases,
and this is where the size is patched in, as long as the start is a machine word.

Results:
* `fst_encode_eq`, `length_encode`: what encoding hands out does not depend on the buffer, and
  nothing stays pending.
* `encodeJson_eq_encode`: encoding a JSON tree is encoding its value.
* **`encode_after_calls`**: after any calls, encoding gives what it gives with a new encoder.
-/

namespace WireTree.AppendBuffer

/-- What can be asked of an encoder. -/
inductive Call where
  | encode (v : Value)
  | encodeJson (j : Json)
  | putValue (v : Value)
  | putJson (j : Json)
  | putNull
  | putBool (x : Bool)
  | putInt (n : Int64)
  | putUInt (n : UInt64)
  | putReal (x : Binary64)
  | putText (s : String)
  | putKey (s : String)
  | putBytes (bs : List UInt8)
  | putArrayHead (n : Nat)
  | putObjectHead (n : Nat)
  | op (op : Op)

/-- The buffer that a call leaves. -/
def call (b : AppendBuffer) : Call → AppendBuffer
  | .encode v => (b.encode v).2
  | .encodeJson j => (b.encodeJson j).2
  | .putValue v => b.putValue v
  | .putJson j => b.putJson j
  | .putNull => b.putNull
  | .putBool x => b.putBool x
  | .putInt n => b.putInt n
  | .putUInt n => b.putUInt n
  | .putReal x => b.putReal x
  | .putText s => b.putText s
  | .putKey s => b.putKey s
  | .putBytes bs => b.putBytes bs
  | .putArrayHead n => b.putArrayHead n
  | .putObjectHead n => b.putObjectHead n
  | .op o => (b.run o).2

/-- The buffer that calls one after the other leave. -/
def calls (b : AppendBuffer) (history : List Call) : AppendBuffer :=
  history.foldl call b

/-! ## Encoding -/

theorem length_reset (b : AppendBuffer) : b.reset.length = 0 :=
  Nat.sub_self _

/-- Taking a frame out leaves nothing pending, also if the frame is too large. -/
theorem length_takeFramed (b : AppendBuffer) : b.takeFramed.2.length = 0 := by
  rw [takeFramed]
  split
  · exact length_reset _
  · exact length_reset b

theorem length_encode (b : AppendBuffer) (v : Value) : (b.encode v).2.length = 0 :=
  length_takeFramed _

/-- Encoding gives the same with all buffers whose position is a machine word. -/
theorem fst_encode_eq {b b' : AppendBuffer} (h : b.written.size < 0x1_0000_0000_0000_0000)
    (h' : b'.written.size < 0x1_0000_0000_0000_0000) (v : Value) :
    (b.encode v).1 = (b'.encode v).1 := by
  rw [encode_eq h, encode_eq h']

theorem encodeJson_eq_encode (b : AppendBuffer) (j : Json) :
    b.encodeJson j = b.encode (.ofJson j) := by
  rw [encodeJson, putJson_eq_putValue, encode]

/-- **An encoder can be used again after anything.** After any calls to an encoder that was created
with any capacity, every value is encoded to exactly the bytes that it is serialized to, and every
JSON tree to those that a new encoder gives, whatever its capacity. If the size fits the header,
these are the size and the body of this tree, so nothing gets into them of what was pending before.
Nothing is pending afterwards.

The calls are such that the position of the encoder is a machine word, as it is if no capacity that
was computed exceeds one. -/
theorem encode_after_calls (capacity : Nat) (history : List Call)
    (hword : ((empty capacity).calls history).written.size < 0x1_0000_0000_0000_0000) :
    let b := (empty capacity).calls history
    (∀ v : Value,
      (b.encode v).1 = serialize v ∧ (b.encode v).2.length = 0 ∧
        (v.encodedSize ≤ 0xffff_ffff → (b.encode v).1 = .ok (frame v.body))) ∧
    ∀ j : Json,
      (∀ fresh, (b.encodeJson j).1 = ((empty fresh).encodeJson j).1) ∧
        (b.encodeJson j).2.length = 0 ∧
        ((Value.ofJson j).encodedSize ≤ 0xffff_ffff →
          (b.encodeJson j).1 = .ok (frame (Value.ofJson j).body)) := by
  intro b
  have hempty : ∀ fresh, (empty fresh).written.size < 0x1_0000_0000_0000_0000 :=
    fun _ => Nat.two_pow_pos 64
  have hok : ∀ v : Value, v.encodedSize ≤ 0xffff_ffff → (b.encode v).1 = .ok (frame v.body) := by
    intro v hsize
    rw [encode_eq hword, if_pos (Nat.lt_succ_of_le hsize)]
  refine ⟨fun v => ⟨?_, length_encode b v, hok v⟩, fun j => ⟨fun fresh => ?_, ?_, ?_⟩⟩
  · exact fst_encode_eq hword (hempty _) v
  · rw [encodeJson_eq_encode, encodeJson_eq_encode]
    exact fst_encode_eq hword (hempty fresh) _
  · rw [encodeJson_eq_encode]
    exact length_encode b _
  · rw [encodeJson_eq_encode]
    exact hok _

/-- An encoder with a small buffer, of which some bytes were taken out and some are pending, and
which has to grow behind the header: the bytes are those of a new encoder. -/
theorem encode_after_calls_pending :
    let history : List Call := [.putText "ab", .op .flush, .putArrayHead 2, .putNull]
    let b := (empty 12).calls history
    let v : Value := .array [.bool true, .text "c"]
    let j : Json := .array [.bool true, .text "c"]
    let bytes : List UInt8 := [11, 0, 0, 0, 0x0e, 2, 0x01, 1, 0x0c, 1, 0x63]
    b.written.size < 0x1_0000_0000_0000_0000 ∧
    b.start = 4 ∧ b.pending = [0x0e, 2, 0x00] ∧
    serialize v = .ok bytes ∧ (b.encode v).1 = .ok bytes ∧ (b.encode v).2.length = 0 ∧
    (b.encodeJson j).1 = .ok bytes := by
  intro history b v j bytes
  have hword : b.written.size < 0x1_0000_0000_0000_0000 := by decide
  obtain ⟨hvalues, hjson⟩ := encode_after_calls 12 history hword
  obtain ⟨hserialize, hlength, hok⟩ := hvalues v
  have hframe : frame v.body = bytes := by decide
  have hresult : (b.encode v).1 = .ok bytes := hframe ▸ hok (by decide)
  have hj : Value.ofJson j = v := rfl
  refine ⟨hword, by decide, by decide, hserialize ▸ hresult, hresult, hlength, ?_⟩
  exact hframe ▸ hj ▸ (hjson j).2.2 (by decide)

end WireTree.AppendBuffer
