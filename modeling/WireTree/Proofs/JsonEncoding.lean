import WireTree.Proofs.EncoderReuse
import WireTree.Proofs.TreeConversions

/-!
# Encoding JSON trees

A JSON tree is encoded as if it were turned into a value first.

Writing a JSON tree chooses the kind of every node on its way, and announces as many elements and
fields as the tree has. Turning the tree into a value makes these choices beforehand, and collects
the fields of every object in a new one. Both come to the same: a whole number is a signed integer
where it fits and else an unsigned one, a text is bytes exactly if it is a URI, and no field gets
lost when fields with distinct keys are collected.

Results:
* `fst_encodeJson_eq`: what encoding a JSON tree hands out is what encoding its value does, with all
  buffers whose position is a machine word.
* **`encodeJson_as_value`**: so it is with all that encoding does to a buffer, whatever the buffer.
-/

namespace WireTree.AppendBuffer

theorem fst_encodeJson_eq {b b' : AppendBuffer} (h : b.written.size < 0x1_0000_0000_0000_0000)
    (h' : b'.written.size < 0x1_0000_0000_0000_0000) (j : Json) :
    (b.encodeJson j).1 = (b'.encode (.ofJson j)).1 := by
  rw [encodeJson_eq_encode, fst_encode_eq h h']

/-- **Encoding a JSON tree is encoding the value that is made of it.**

* With every buffer, in whatever state earlier calls have left it, writing the tree is writing the
  value, and encoding the tree is encoding the value: the answer is the same, bytes or error, and so
  is the buffer behind.
* With two encoders that were used in different ways before, the answer is the same as well, as long
  as their positions are machine words.
* The value has the containers of the tree, with the same keys in the same order. It is also the one
  that is made by inserting the fields of every object one after the other, as the keys of every
  object are distinct. -/
theorem encodeJson_as_value (j : Json) :
    (∀ b : AppendBuffer, b.putJson j = b.putValue (.ofJson j) ∧
      b.encodeJson j = b.encode (.ofJson j)) ∧
    (∀ b b' : AppendBuffer, b.written.size < 0x1_0000_0000_0000_0000 →
      b'.written.size < 0x1_0000_0000_0000_0000 →
      (b.encodeJson j).1 = (b'.encode (.ofJson j)).1) ∧
    (Value.ofJson j).outline = j.outline ∧
    (j.DistinctKeys → Value.collectJson j = .ofJson j) := by
  refine ⟨fun b => ⟨putJson_eq_putValue j b, encodeJson_eq_encode b j⟩, fun b b' h h' => ?_,
    Value.outline_ofJson j, Value.collectJson_eq j⟩
  exact fst_encodeJson_eq h h' j

/-- A number of each kind, a URI and a key that looks like one: an encoder that was used before
writes the tree as a new one writes the value, with bytes in place of the URI. -/
theorem encodeJson_as_value_kinds :
    let j : Json := .object [("n", .array [.whole ⟨-300, by decide, by decide⟩,
        .whole ⟨0xffff_ffff_ffff_ffff, by decide, by decide⟩,
        .real ⟨⟨0x3fe0000000000000⟩, by decide⟩]),
      ("data:", .text "data:application/octet-stream;base64,AAE=")]
    let v : Value := .object [("n", .array [.int (-300), .uint 0xffff_ffff_ffff_ffff,
        .real ⟨0x3fe0000000000000⟩]),
      ("data:", .bytes [0, 1])]
    let bytes : List UInt8 := [37, 0, 0, 0, 0x0f, 2, 1, 0x6e, 0x0e, 3, 0x03, 0xd4, 0xfe,
      0x09, 0xff, 0xff, 0xff, 0xff, 0xff, 0xff, 0xff, 0xff, 0x0a, 0, 0, 0, 0x3f,
      5, 0x64, 0x61, 0x74, 0x61, 0x3a, 0x0d, 2, 0, 1]
    let b := (empty 12).calls [.putText "ab", .op .flush, .putArrayHead 2, .putNull]
    (b.written.size < 0x1_0000_0000_0000_0000 ∧ j.DistinctKeys) ∧
    b.encodeJson j = b.encode v ∧ (b.encodeJson j).1 = .ok bytes ∧
    ((empty 0).encode v).1 = .ok bytes ∧ Value.collectJson j = v := by
  intro j v bytes b
  have hword : b.written.size < 0x1_0000_0000_0000_0000 := by decide
  have hkeys : j.DistinctKeys := ⟨by decide, ⟨trivial, trivial, trivial, trivial⟩, trivial, trivial⟩
  obtain ⟨hsame, hother, -, hcollect⟩ := encodeJson_as_value j
  have hv : Value.ofJson j = v := rfl
  have hbytes : ((empty 0).encode v).1 = .ok bytes := by decide
  rw [hv] at hsame hother hcollect
  exact ⟨⟨hword, hkeys⟩, (hsame b).2, (hother b (empty 0) hword (by decide)).trans hbytes, hbytes,
    hcollect hkeys⟩

end WireTree.AppendBuffer
