import WireTree.Proofs.JsonReading
import WireTree.Proofs.Normalisation
import WireTree.Tools

/-!
# Round trip of JSON trees

Whatever JSON tree is encoded is decoded again to itself.

A JSON tree is written like the value that is made from it (`putJson_eq_putValue`), and read back as
the JSON tree that is made from the value that comes back. So the way through the bytes is the one
of values, and what remains is the way from JSON to values and back.

Results:
* **`putJson_eq_putValue`**: writing a JSON tree is writing its value.
* `decodeJson_frame_body`: a framed value is decoded to its JSON tree.
* **`decodeJson_encodeJson`**: the round trip, through the codec and through the tools.
-/

namespace WireTree

/-! ## Writing -/

namespace AppendBuffer

theorem putWhole_eq_putValue (b : AppendBuffer) (n : WholeNumber) :
    b.putWhole n = b.putValue n.toValue := by
  unfold putWhole WholeNumber.toValue
  split <;> rfl

mutual

/-- **Writing a JSON tree is writing its value.** -/
theorem putJson_eq_putValue : ∀ (j : Json) (b : AppendBuffer), b.putJson j = b.putValue (.ofJson j)
  | .null, _ | .bool _, _ | .real _, _ => rfl
  | .whole n, b => putWhole_eq_putValue b n
  | .text s, b => by
    rw [putJson, Value.ofJson, Value.ofText]
    cases DataUri.decode? s <;> rfl
  | .array items, b => by
    rw [putJson, putJsons_eq_putValues items, Value.ofJson, putValue, Value.length_ofJsonItems]
  | .object fields, b => by
    rw [putJson, putJsonFields_eq_putValueFields fields, Value.ofJson, putValue,
      Value.length_ofJsonFields]

theorem putJsons_eq_putValues : ∀ (items : List Json) (b : AppendBuffer),
    b.putJsons items = b.putValues (Value.ofJsonItems items)
  | [], _ => rfl
  | j :: js, b => by
    rw [putJsons, putJson_eq_putValue j, putJsons_eq_putValues js, Value.ofJsonItems, putValues]

theorem putJsonFields_eq_putValueFields : ∀ (fields : List (String × Json)) (b : AppendBuffer),
    b.putJsonFields fields = b.putValueFields (Value.ofJsonFields fields)
  | [], _ => rfl
  | (k, j) :: rest, b => by
    rw [putJsonFields, putJson_eq_putValue j, putJsonFields_eq_putValueFields rest,
      Value.ofJsonFields, putValueFields]

end

/-- A JSON tree whose value fits the header is encoded as the frame of that value. -/
theorem encodeJson_eq_ok {b : AppendBuffer} (h : b.written.size < 0x1_0000_0000_0000_0000)
    {j : Json} (hsize : (Value.ofJson j).encodedSize < 0x1_0000_0000) :
    (b.encodeJson j).1 = .ok (frame (Value.ofJson j).body) := by
  rw [encodeJson, putJson_eq_putValue]
  exact (encode_eq h (.ofJson j)).trans (if_pos hsize)

end AppendBuffer

/-! ## Reading back -/

section
variable {j : Json} (hkeys : j.DistinctKeys)
  (hsize : (Value.ofJson j).encodedSize < 0x1_0000_0000) {o : Options}
  (hnest : j.nesting ≤ o.maxDepth.toNat)
include hkeys hsize hnest

theorem decodeJson_frame_body : decodeJson o (frame (Value.ofJson j).body) = .ok j := by
  have hnest' : (Value.ofJson j).nesting ≤ o.maxDepth.toNat := by rwa [Value.nesting_ofJson]
  have hd := decode_frame_body hsize (Value.distinctKeys_ofJson j hkeys) hnest'
  rw [decodeJson, decodeTree_translate Json.translates_ofValue]
  rw [decode] at hd
  rw [hd]
  exact congrArg Except.ok ((Json.ofValue_normal _).trans (Json.ofValue_ofJson j))

theorem check_frame_ofJson : check o (frame (Value.ofJson j).body) = .ok () := by
  refine check_frame_body (Value.distinctKeys_ofJson j hkeys) hsize ?_
  rwa [Value.nesting_ofJson]

end

/-- A buffer that passes the check and is decoded is unpacked to the text of its tree. -/
theorem unpack_eq_ok {o : Options} {bytes : List UInt8} {j : Json} (hcheck : check o bytes = .ok ())
    (hdecode : decodeJson o bytes = .ok j) : unpack o bytes = .ok j.pretty := by
  rw [unpack, hcheck, hdecode]
  split <;> rfl

/-- **Every JSON tree whose size fits the header survives encoding and decoding**, under all options
that allow its nesting: the same containers with the same keys in the same order, the same texts,
also those that are or look like data URIs, whole numbers as whole numbers and reals with the same
bits. What was in the buffer before makes no difference. Objects are maps, so the keys of every
object are distinct.

For a text that is read as such a tree, packing succeeds, the result is valid, and unpacking it
gives the text that is printed for the tree. -/
theorem decodeJson_encodeJson (j : Json) (hsize : (Value.ofJson j).encodedSize ≤ 0xffff_ffff) :
    (j.DistinctKeys → ∀ b : AppendBuffer, b.written.size < 0x1_0000_0000_0000_0000 →
      ∃ bytes, (b.encodeJson j).1 = .ok bytes ∧
        bytes.length = (Value.ofJson j).encodedSize ∧
        ∀ o : Options, j.nesting ≤ o.maxDepth.toNat → decodeJson o bytes = .ok j) ∧
    ∀ text, Json.ofText? text = some j →
      ∃ bytes, pack text = .ok bytes ∧
        ∀ o : Options, j.nesting ≤ o.maxDepth.toNat →
          (inspect o bytes).isValid = true ∧ unpack o bytes = .ok j.pretty := by
  have hsize' : (Value.ofJson j).encodedSize < 0x1_0000_0000 := Nat.lt_succ_of_le hsize
  refine ⟨fun hkeys b hb => ?_, fun text htext => ?_⟩
  · refine ⟨_, AppendBuffer.encodeJson_eq_ok hb hsize', ?_, ?_⟩
    · rw [length_frame, Value.length_body, Value.encodedSize]
    · intro o hnest
      exact decodeJson_frame_body hkeys hsize' hnest
  · have hkeys := Json.distinctKeys_of_ofText? htext
    have hempty : (AppendBuffer.empty AppendBuffer.defaultChunk).written.size <
        0x1_0000_0000_0000_0000 := Nat.two_pow_pos 64
    refine ⟨frame (Value.ofJson j).body, ?_, fun o hnest => ⟨?_, ?_⟩⟩
    · rw [pack, htext]
      exact congrArg (Except.mapError ToolError.encode)
        (AppendBuffer.encodeJson_eq_ok hempty hsize')
    · rw [Inspection.isValid, inspect, check_frame_ofJson hkeys hsize' hnest]
      rfl
    · exact unpack_eq_ok (check_frame_ofJson hkeys hsize' hnest)
        (decodeJson_frame_body hkeys hsize' hnest)

/-- Two bytes as a URI, a text that only starts like one, a number that fits no signed one, and the
negative of one half. -/
def mixedTree : Json :=
  .object [("u", .text "data:application/octet-stream;base64,AAE="),
    ("t", .text "data:A"),
    ("n", .array [.whole ⟨18446744073709551615, by decide, by decide⟩,
      .real ⟨⟨0xbfe0000000000000⟩, by decide⟩])]

/-- A text of the tree. -/
def mixedText : String :=
  "\x7b\"u\":\"data:application/octet-stream;base64,AAE=\"," ++
    "\"t\":\"data:A\"," ++
    "\"n\":[18446744073709551615,-5e-1]\x7d"

/-- The tree needs two levels to come back, from its bytes and from its text. -/
theorem decodeJson_encodeJson_mixed :
    ((Value.ofJson mixedTree).encodedSize ≤ 0xffff_ffff ∧ mixedTree.DistinctKeys ∧
      Json.ofText? mixedText = some mixedTree ∧ mixedTree.nesting = 2) ∧
    (∃ bytes, ((AppendBuffer.empty 0).encodeJson mixedTree).1 = .ok bytes ∧
      decodeJson { maxDepth := 2 } bytes = .ok mixedTree) ∧
    ∃ bytes, pack mixedText = .ok bytes ∧
      (inspect { maxDepth := 2, exactSize := true } bytes).isValid = true ∧
      unpack { maxDepth := 2 } bytes = .ok mixedTree.pretty := by
  have hsize : (Value.ofJson mixedTree).encodedSize ≤ 0xffff_ffff := by decide
  have hkeys : mixedTree.DistinctKeys :=
    ⟨by decide, trivial, trivial, ⟨trivial, trivial, trivial⟩, trivial⟩
  have htext : Json.ofText? mixedText = some mixedTree := rfl
  obtain ⟨hcodec, htools⟩ := decodeJson_encodeJson mixedTree hsize
  obtain ⟨bytes, hbytes, -, hback⟩ := hcodec hkeys (AppendBuffer.empty 0) (by decide)
  obtain ⟨packed, hpacked, hunpack⟩ := htools mixedText htext
  refine ⟨⟨hsize, hkeys, htext, rfl⟩, ⟨bytes, hbytes, hback _ (by decide)⟩, packed, hpacked, ?_⟩
  exact ⟨(hunpack _ (by decide)).1, (hunpack _ (by decide)).2⟩

end WireTree
