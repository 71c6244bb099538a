import WireTree.Proofs.BodySpelling
import WireTree.Proofs.DecodedValue
import WireTree.Proofs.NestingLimit
import WireTree.Proofs.ValueEquality

/-!
# Round trip

Whatever is encoded is decoded again, up to the nesting limit.

A framed body holds exactly one value, so the options for sizes and unknown tags make no difference
to it. What comes back is the normal form of the value.

Results:
* `declaredSize_frame`, `declaredRegion_frame`: a frame declares its own length, and its region is
  the body.
* `decode_frame_body`, `decode_frame_body_tooDeep`: a framed value is decoded, or nests too deeply.
* **`decode_serialize`**: the round trip with its exact limit.
-/

namespace WireTree

/-! ## Frames -/

theorem length_frame (body : List UInt8) : (frame body).length = headerSize + body.length := by
  rw [frame, List.length_append, Width.length_encode]
  rfl

section
variable {body : List UInt8} (h : headerSize + body.length < 0x1_0000_0000)
include h

/-- A frame declares its own length. -/
theorem declaredSize_frame : (declaredSize (frame body)).toNat = (frame body).length := by
  have hdeclared : declaredSize (frame body) =
      UInt32.ofBitVec (Width.w32.decode
        (Width.w32.encode (BitVec.ofNat 32 (headerSize + body.length)))) := rfl
  rw [hdeclared, Width.decode_encode, length_frame, UInt32.toNat_ofBitVec, BitVec.toNat_ofNat]
  exact Nat.mod_eq_of_lt h

theorem declaredRegion_frame : declaredRegion (frame body) = body := by
  rw [declaredRegion, declaredSize_frame h, List.take_length, frame]
  exact List.drop_left' (Width.length_encode ..)

theorem headerFits_frame (hpos : 0 < body.length) : HeaderFits (frame body) := by
  rw [HeaderFits, declaredSize_frame h, length_frame, minBufferSize, headerSize]
  omega

end

/-- A spelling by itself, in a frame, holds its tree and nothing else. -/
theorem valueAt_frame {o : Options} {t : Wire} {p : List UInt8}
    (hs : Wire.Spells o.unknownTags t p) (hsize : headerSize + p.length < 0x1_0000_0000)
    (hnest : t.nesting ≤ o.maxDepth.toNat) : ValueAt o (frame p) t p [] where
  header := headerFits_frame hsize (Nat.zero_lt_of_lt (Wire.nesting_lt_length hs))
  region := by rw [declaredRegion_frame hsize, List.append_nil]
  spells := hs
  nesting := hnest

/-! ## Framed values -/

section
variable {v : Value} (hsize : v.encodedSize < 0x1_0000_0000)
include hsize

theorem length_body_lt : headerSize + v.body.length < 0x1_0000_0000 := by
  rwa [Value.length_body]

theorem spells_body_of_size (policy : UnknownTags) : Wire.Spells policy v.wire v.body := by
  have := length_body_lt hsize
  exact spells_body v (by omega)

theorem headerFits_frame_body : HeaderFits (frame v.body) := by
  have hlen := Wire.nesting_lt_length (spells_body_of_size hsize .reject)
  exact headerFits_frame (length_body_lt hsize) (Nat.zero_lt_of_lt hlen)

/-- The frame of a value holds the value and nothing else. -/
theorem valueAt_frame_body {o : Options} (hnest : v.nesting ≤ o.maxDepth.toNat) :
    ValueAt o (frame v.body) v.wire v.body [] := by
  rw [← Value.nesting_wire] at hnest
  exact valueAt_frame (spells_body_of_size hsize o.unknownTags) (length_body_lt hsize) hnest

/-- A framed value that nests no deeper than allowed comes back in its normal form. -/
theorem decode_frame_body (hkeys : v.DistinctKeys) {o : Options}
    (hnest : v.nesting ≤ o.maxDepth.toNat) : decode o (frame v.body) = .ok v.normal := by
  rw [← Value.denote_wire v hkeys]
  exact decode_eq_ok_of_valueAt (valueAt_frame_body hsize hnest) fun _ => rfl

/-- A framed value that nests deeper than allowed is refused for that reason. -/
theorem decode_frame_body_tooDeep {o : Options} (hnest : o.maxDepth.toNat < v.nesting) :
    ∃ offset, decode o (frame v.body) = .error (.tooDeep o.maxDepth offset) := by
  obtain ⟨offset, h⟩ := decodeWith_tooDeep TreeKind.value.builder (headerFits_frame_body hsize)
    ((declaredRegion_frame (length_body_lt hsize)).trans (List.append_nil _).symm)
    (spells_body_of_size hsize o.unknownTags) (Value.nesting_wire v ▸ hnest) ()
  refine ⟨offset, ?_⟩
  rw [decode, decodeTree, h]
  rfl

end

/-! ## The round trip -/

/-- **Every value whose size fits the header survives encoding and decoding**, under all options
that allow its nesting; under all others decoding fails because of the nesting. What comes back is
the value in its normal form: only unsigned numbers that fit signed ones have changed, and the two
are equal unless some real is not a number. The header declares the number of bytes.

Objects are maps, so the keys of every object in the value are distinct. -/
theorem decode_serialize (v : Value) (hkeys : v.DistinctKeys)
    (hsize : v.encodedSize ≤ 0xffff_ffff) :
    ∃ bytes, serialize v = .ok bytes ∧ (declaredSize bytes).toNat = bytes.length ∧
      (∀ o : Options, v.nesting ≤ o.maxDepth.toNat → decode o bytes = .ok v.normal) ∧
      (∀ o : Options, o.maxDepth.toNat < v.nesting →
        ∃ offset, decode o bytes = .error (.tooDeep o.maxDepth offset)) ∧
      (v.hasNaN = false → v.normal.equals v = true) := by
  have hsize' : v.encodedSize < 0x1_0000_0000 := Nat.lt_succ_of_le hsize
  refine ⟨frame v.body, serialize_eq_ok_iff.2 ⟨hsize', rfl⟩, ?_, ?_, ?_, ?_⟩
  · exact declaredSize_frame (length_body_lt hsize')
  · intro o hnest
    exact decode_frame_body hsize' hkeys hnest
  · intro o hnest
    exact decode_frame_body_tooDeep hsize' hnest
  · intro hnan
    rw [Value.normal_equals, Value.equals_self_iff hkeys]
    exact hnan

/-- A value of two levels with an unsigned number that fits a signed one: it needs two levels to
come back, and the number comes back signed. -/
theorem decode_serialize_two_levels :
    let v : Value := .object [("n", .array [.uint 300, .real ⟨0x3ff0000000000000⟩]), ("t", .null)]
    (v.DistinctKeys ∧ v.encodedSize ≤ 0xffff_ffff) ∧
      ∃ bytes, serialize v = .ok bytes ∧
        decode { maxDepth := 2 } bytes = .ok
          (.object [("n", .array [.int 300, .real ⟨0x3ff0000000000000⟩]), ("t", .null)]) ∧
        ∃ offset, decode { maxDepth := 1 } bytes = .error (.tooDeep 1 offset) := by
  intro v
  have hkeys : v.DistinctKeys := ⟨by decide, ⟨trivial, trivial, trivial⟩, trivial, trivial⟩
  have hsize : v.encodedSize ≤ 0xffff_ffff := by decide
  obtain ⟨bytes, hs, -, hok, hdeep, -⟩ := decode_serialize v hkeys hsize
  refine ⟨⟨hkeys, hsize⟩, bytes, hs, ?_, ?_⟩
  · exact hok { maxDepth := 2 } (by decide)
  · exact hdeep { maxDepth := 1 } (by decide)

end WireTree
