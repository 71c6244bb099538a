import WireTree.Proofs.Agreement
import WireTree.Proofs.Minimality
import WireTree.Proofs.RoundTrip

/-!
# Normalisation

A decoded value is encoded in the one way in which values are written.

A buffer may spell a value in many ways: with padded counts, wide numbers, repeated keys, odd truth
values or unknown tags. Decoding and encoding again keeps none of that, and never makes the buffer
longer, as long as no real in the value is not a number.

Results:
* `body_normal`: a value is written like its normal form.
* **`serialize_of_decode`**: what is decoded can be encoded, in no more bytes than were read; that
  decodes to the same value and passes the check; and a buffer that was written comes back as it is.
-/

namespace WireTree

/-! ## Normal forms are written alike -/

namespace Value

theorem body_ofUInt (n : UInt64) : (ofUInt n).body = bodyOfUInt n := by
  rw [ofUInt]
  split
  · rename_i h
    have hn := toInt_toInt64_of_lt h
    rw [body, bodyOfInt, if_pos (by omega), UInt64.toUInt64_toInt64]
  · rfl

mutual

/-- A value is written like its normal form. -/
theorem body_normal : ∀ v : Value, v.normal.body = v.body
  | null | bool _ | int _ | real _ | text _ | bytes _ => rfl
  | uint n => body_ofUInt n
  | array items => by
    rw [normal, body, itemsBody_normal items, normalItems_eq_map, List.length_map, body]
  | object fields => by
    rw [normal, body, fieldsBody_normal fields, normalFields_eq_map, List.length_map, body]

theorem itemsBody_normal : ∀ items : List Value, itemsBody (normalItems items) = itemsBody items
  | [] => rfl
  | v :: vs => by rw [normalItems, itemsBody, body_normal v, itemsBody_normal vs, itemsBody]

theorem fieldsBody_normal : ∀ fields : List (String × Value),
    fieldsBody (normalFields fields) = fieldsBody fields
  | [] => rfl
  | (k, v) :: rest => by
    rw [normalFields, fieldsBody, body_normal v, fieldsBody_normal rest, fieldsBody]

end

end Value

/-! ## Encoding what was decoded -/

/-- A framed value passes the check if it nests no deeper than allowed. -/
theorem check_frame_body {v : Value} (hkeys : v.DistinctKeys)
    (hsize : v.encodedSize < 0x1_0000_0000) {o : Options} (hnest : v.nesting ≤ o.maxDepth.toNat) :
    check o (frame v.body) = .ok () := by
  have hd : decodeTree TreeKind.value o.strict (frame v.body) = .ok v.normal :=
    decode_frame_body hsize hkeys hnest
  rw [← outcome_decodeTree TreeKind.value o, hd]
  rfl

/-- What was decoded from a buffer that was written is what was written. -/
theorem body_of_decode_serialize {o : Options} {bytes : List UInt8} {v v' : Value}
    (hkeys : v'.DistinctKeys) (hs : serialize v' = .ok bytes) (hd : decode o bytes = .ok v) :
    frame v.body = bytes := by
  obtain ⟨hsize, rfl⟩ := serialize_eq_ok_iff.1 hs
  by_cases hnest : v'.nesting ≤ o.maxDepth.toNat
  · rw [decode_frame_body hsize hkeys hnest] at hd
    cases hd
    rw [Value.body_normal]
  · obtain ⟨offset, he⟩ := decode_frame_body_tooDeep hsize (Nat.lt_of_not_le hnest)
    rw [he] at hd
    cases hd

section
variable {o : Options} {bytes p tail : List UInt8} {t : Wire} (h : ValueAt o bytes t p tail)
include h

/-- The bytes that were read, and the header, are part of the declared size. -/
theorem ValueAt.length_le : headerSize + p.length ≤ (declaredSize bytes).toNat := by
  rw [← h.header.length_region, h.region, List.length_append]
  omega

variable (hnan : t.denote.hasNaN = false)
include hnan

/-- Encoding takes no more bytes than were read. -/
theorem ValueAt.encodedSize_le : t.denote.encodedSize ≤ headerSize + p.length :=
  Nat.add_le_add_left (size_le_of_spells h.spells hnan) headerSize

theorem ValueAt.encodedSize_lt : t.denote.encodedSize < 0x1_0000_0000 := by
  have hle := h.encodedSize_le hnan
  have hdeclared := h.length_le
  have hlt := (declaredSize bytes).toNat_lt
  omega

end

/-- **What is decoded is encoded in the one way in which values are written**, unless a real in it
is not a number.

* Encoding succeeds and takes no more bytes than the walk has passed when it ends, which is at the
  declared size at most. So no buffer of the same value is shorter, under any options.
* What is written decodes to the same value, also where sizes have to be exact, and it passes the
  check, also if unknown tags were read as null before.
* A buffer that was itself written comes back byte by byte. -/
theorem serialize_of_decode {o : Options} {bytes : List UInt8} {v : Value}
    (h : decode o bytes = .ok v) (hnan : v.hasNaN = false) :
    ∃ written, serialize v = .ok written ∧
      (∃ node after, Walk.root TreeKind.value.builder o ⟨declaredSize bytes⟩
          ⟨Header.region ⟨declaredSize bytes⟩ bytes, ()⟩ = .ok node after ∧
        written.length ≤ after.cursor.pos ∧ after.cursor.pos ≤ (declaredSize bytes).toNat) ∧
      (∀ o' bytes', decode o' bytes' = .ok v → written.length ≤ bytes'.length) ∧
      (∀ full, decode { o with exactSize := full } written = .ok v ∧
        check { o with exactSize := full } written = .ok ()) ∧
      ∀ v' : Value, v'.DistinctKeys → serialize v' = .ok bytes → written = bytes := by
  obtain ⟨t, p, tail, hat, hexact, rfl⟩ := exists_valueAt_of_decode h
  have hsize := hat.encodedSize_lt hnan
  have hkeys := t.distinctKeys_denote
  have hnest : t.denote.nesting ≤ o.maxDepth.toNat :=
    Nat.le_trans t.nesting_denote_le hat.nesting
  have hlen : (frame t.denote.body).length = t.denote.encodedSize := by
    rw [length_frame, Value.length_body, Value.encodedSize]
  refine ⟨frame t.denote.body, serialize_eq_ok_iff.2 ⟨hsize, rfl⟩, ?_, ?_, ?_, ?_⟩
  · refine ⟨_, _, root_of_valueAt hat hexact TreeKind.value.builder (), ?_, hat.length_le⟩
    rw [hlen]
    exact hat.encodedSize_le hnan
  · intro o' bytes' h'
    obtain ⟨t', p', tail', hat', -, heq⟩ := exists_valueAt_of_decode h'
    rw [heq] at hnan
    rw [hlen, heq]
    exact Nat.le_trans (hat'.encodedSize_le hnan) (Nat.le_trans hat'.length_le hat'.header.2)
  · intro full
    refine ⟨?_, check_frame_body hkeys hsize hnest⟩
    have hdecode := decode_frame_body hsize hkeys (o := { o with exactSize := full }) hnest
    rwa [t.normal_denote] at hdecode
  · intro v' hkeys' hs'
    exact body_of_decode_serialize hkeys' hs' h

/-- An object with a padded count and twice the same key, first with a wide number and then with an
unknown tag. -/
def repeatedKey : List UInt8 :=
  [22, 0, 0, 0, 0x0f, 0xfd, 2, 0, 1, 0x61, 0x05, 5, 0, 0, 0, 0, 0, 0, 0, 1, 0x61, 0x42]

/-- Of a padded count, a wide number, a repeated key and an unknown tag, a null under the key is
left. -/
theorem serialize_of_decode_repeated_key :
    (decode { unknownTags := .null } repeatedKey = .ok (.object [("a", .null)]) ∧
      (Value.object [("a", .null)]).hasNaN = false) ∧
    ∃ written, serialize (.object [("a", .null)]) = .ok written ∧ written.length ≤ 22 ∧
      decode { unknownTags := .null, exactSize := true } written = .ok (.object [("a", .null)]) ∧
      check { unknownTags := .null } written = .ok () := by
  have hd : decode { unknownTags := .null } repeatedKey = .ok (.object [("a", .null)]) := rfl
  have hnan : (Value.object [("a", .null)]).hasNaN = false := rfl
  obtain ⟨written, hs, -, hshort, hback, -⟩ := serialize_of_decode hd hnan
  exact ⟨⟨hd, hnan⟩, written, hs, hshort _ repeatedKey hd, (hback true).1, (hback false).2⟩

end WireTree
