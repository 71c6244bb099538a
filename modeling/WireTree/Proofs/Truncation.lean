import WireTree.Proofs.Normalisation
import WireTree.Proofs.ShortWindows

/-!
# Truncation

A buffer that is in order is no longer so once it loses its end.

There are two ways to lose it. The header may stay as it was, and then it declares more than there
is. Or the header declares what is left (`cutTo`), and then the walk meets the end of the region
inside of some piece: a value has no other value at its front.

Results:
* `decodeWith_take_of_lt`, `decodeWith_take`: a buffer without its end is refused at its header.
* **`decodeWith_frame_ahead`**: the front of a value, framed, is refused as truncated, with any
  builder and whether sizes have to be exact or not.
* **`truncation_rejected`**: so no part of a buffer that passes the check is accepted.
-/

namespace WireTree

open Cursor (facing)

variable {σ ν α : Type}

/-! ## Headers of short buffers -/

theorem decodeWith_of_headerParse {bytes : List UInt8} {e : DecodeError}
    (h : Header.parse bytes = .error e) (b : Builder σ ν) (o : Options) (s : σ) :
    decodeWith b o bytes s = (.error e, s) := by
  rw [decodeWith, h]

section
variable {bytes : List UInt8} {n : Nat}

/-- Fewer bytes than a header and a tag take are refused, whatever they are. -/
theorem decodeWith_take_of_lt (hn : n < minBufferSize) (hlen : n ≤ bytes.length) (b : Builder σ ν)
    (o : Options) (s : σ) : decodeWith b o (bytes.take n) s = (.error (.bufferTooSmall n), s) := by
  refine decodeWith_of_headerParse ?_ b o s
  simp only [Header.parse, List.length_take_of_le hlen, if_pos hn]

/-- A buffer that declares more than is left of it is refused. -/
theorem decodeWith_take (hn : minBufferSize ≤ n) (hlen : n ≤ bytes.length)
    (hlt : n < (declaredSize bytes).toNat) (b : Builder σ ν) (o : Options) (s : σ) :
    decodeWith b o (bytes.take n) s =
      (.error (.declaredSizeExceedsBuffer (declaredSize bytes) n), s) := by
  have hheader : headerSize ≤ n := Nat.le_trans (by decide) hn
  refine decodeWith_of_headerParse ?_ b o s
  simp only [Header.parse, declaredSize_take hheader, List.length_take_of_le hlen]
  rw [if_neg (Nat.not_lt_of_le hn), if_neg (by omega), if_pos hlt]

end

/-! ## Regions that end inside of a value -/

/-- The result is that something was truncated behind the header, at the `n`-th byte at the
latest. -/
def TruncatedWithin (n : Nat) (result : Except DecodeError α) : Prop :=
  ∃ offset, headerSize ≤ offset ∧ offset ≤ n ∧ result = .error (.truncated offset)

theorem TruncatedWithin.map {β : Type} {n : Nat} {result : Except DecodeError α}
    (h : TruncatedWithin n result) (f : α → β) : TruncatedWithin n (result.map f) := by
  obtain ⟨offset, hlow, hstop, rfl⟩ := h
  exact ⟨offset, hlow, hstop, rfl⟩

/-- A value that has lost its end is truncated somewhere between where it starts and where it
ends. -/
theorem Walk.value_ahead (b : Builder σ ν) (refusal : Refusal) {o : Options} {levels : Nat}
    {t : Wire} {ahead lost : List UInt8} (hs : Wire.Spells o.unknownTags t (ahead ++ lost))
    (hnest : t.nesting ≤ levels) (hlost : lost ≠ []) (pos : Nat) (s : σ) :
    ∃ offset after, pos ≤ offset ∧ offset ≤ pos + ahead.length ∧
      Walk.value b o refusal levels ⟨facing pos ahead, s⟩ = .error (.truncated offset) after := by
  have hfull := (Walk.accepts_value b o refusal levels).eq_ok ⟨t, hs, hnest, rfl⟩ pos [] (s := s)
  have hshort := Walk.endsEarly_value b o refusal levels pos ahead lost s
  rw [List.append_nil] at hfull
  rw [hfull] at hshort
  generalize Walk.value b o refusal levels ⟨facing pos ahead, s⟩ = short at hshort ⊢
  generalize hafter : Walk.State.mk (facing _ []) _ = after at hshort
  cases hshort with
  | @ok _ tail _ _ _ _ =>
    -- The whole value is read to its end, so nothing of it can be lost.
    have hrest : [] = tail ++ lost := congrArg (·.cursor.rest) hafter
    exact absurd (List.append_eq_nil_iff.1 hrest.symm).2 hlost
  | truncated _ after hlow hstop => exact ⟨_, after, hlow, hstop, rfl⟩

/-- **The front of a value, framed, is refused as truncated**, behind the header and at its end at
the latest. -/
theorem decodeWith_frame_ahead (b : Builder σ ν) {o : Options} {t : Wire} {ahead lost : List UInt8}
    (hs : Wire.Spells o.unknownTags t (ahead ++ lost)) (hnest : t.nesting ≤ o.levels 0)
    (hlost : lost ≠ []) (hahead : 0 < ahead.length)
    (hsize : headerSize + ahead.length < 0x1_0000_0000) (s : σ) :
    TruncatedWithin (headerSize + ahead.length) (decodeWith b o (frame ahead) s).1 := by
  have hfits := headerFits_frame hsize hahead
  obtain ⟨offset, after, hlow, hstop, hvalue⟩ :=
    Walk.value_ahead b (o.refusal 0) hs hnest hlost headerSize s
  refine ⟨offset, hlow, hstop, ?_⟩
  simp only [decodeWith, headerParse_eq_ok_iff.2 ⟨hfits, rfl⟩, region_eq_facing hfits,
    declaredRegion_frame hsize, root_eq, Walk.valueAt, hvalue]

/-! ## Buffers that are cut -/

/-- The buffer is as long as it declares, and passes the check. -/
structure Intact (o : Options) (bytes : List UInt8) : Prop where
  length : bytes.length = (declaredSize bytes).toNat
  check : check o bytes = .ok ()

/-- The first `n` bytes of a buffer, with a header that declares just those. -/
def cutTo (n : Nat) (bytes : List UInt8) : List UInt8 :=
  Width.w32.encode (BitVec.ofNat 32 n) ++ (bytes.take n).drop headerSize

/-- What is encoded is intact, up to the nesting limit. -/
theorem intact_of_serialize {o : Options} {v : Value} {bytes : List UInt8} (hkeys : v.DistinctKeys)
    (hnest : v.nesting ≤ o.maxDepth.toNat) (hs : serialize v = .ok bytes) : Intact o bytes := by
  obtain ⟨hsize, rfl⟩ := serialize_eq_ok_iff.1 hs
  exact ⟨(declaredSize_frame (length_body_lt hsize)).symm, check_frame_body hkeys hsize hnest⟩

section
variable {o : Options} {bytes : List UInt8} (h : Intact o bytes)
include h

theorem Intact.length_lt : bytes.length < 0x1_0000_0000 :=
  h.length ▸ (declaredSize bytes).toNat_lt

/-- Where sizes have to be exact, one value fills the buffer behind its header. -/
theorem Intact.exists_spells (hexact : o.exactSize = true) :
    ∃ t, Wire.Spells .reject t (bytes.drop headerSize) ∧ t.nesting ≤ o.levels 0 := by
  obtain ⟨t, p, tail, hat, htail, -⟩ := decodeWith_eq_ok_iff.1 (Prod.ext h.check rfl)
  have hregion : bytes.drop headerSize = p := by
    have := hat.region
    rwa [htail hexact, List.append_nil, declaredRegion, ← h.length, List.take_length] at this
  exact ⟨t, hregion ▸ hat.spells, hat.nesting⟩

end

/-- A cut buffer is the frame of the front of a body that has lost its end. -/
theorem exists_cutTo_eq_frame {bytes : List UInt8} {n : Nat} (hn : headerSize ≤ n)
    (hlen : n < bytes.length) :
    ∃ ahead lost, bytes.drop headerSize = ahead ++ lost ∧ lost ≠ [] ∧
      headerSize + ahead.length = n ∧ cutTo n bytes = frame ahead := by
  have hcount : headerSize + ((bytes.take n).drop headerSize).length = n := by
    rw [List.length_drop, List.length_take_of_le (Nat.le_of_lt hlen)]
    exact Nat.add_sub_cancel' hn
  refine ⟨(bytes.take n).drop headerSize, bytes.drop n, ?_, ?_, hcount, ?_⟩
  · have hhead : headerSize ≤ (bytes.take n).length := by
      rwa [List.length_take_of_le (Nat.le_of_lt hlen)]
    rw [← List.drop_append_of_le_length hhead, List.take_append_drop]
  · rw [Ne, List.drop_eq_nil_iff]
    exact Nat.not_le_of_lt hlen
  · rw [cutTo, frame, hcount]

/-- With any builder, whether sizes have to be exact or not, and under either policy for unknown
tags, a cut buffer is refused as truncated. -/
theorem decodeWith_cutTo (b : Builder σ ν) {o : Options} {bytes : List UInt8} (h : Intact o bytes)
    (hexact : o.exactSize = true) {n : Nat} (hn : minBufferSize ≤ n) (hlen : n < bytes.length)
    (full : Bool) (policy : UnknownTags) (s : σ) :
    TruncatedWithin n
      (decodeWith b { o with exactSize := full, unknownTags := policy } (cutTo n bytes) s).1 := by
  have hheader : headerSize < n := hn
  obtain ⟨t, hs, hnest⟩ := h.exists_spells hexact
  obtain ⟨ahead, lost, hbody, hlost, rfl, hcut⟩ := exists_cutTo_eq_frame (Nat.le_of_lt hheader) hlen
  rw [hbody] at hs
  rw [hcut]
  have hsize := Nat.lt_trans hlen h.length_lt
  refine decodeWith_frame_ahead b hs.of_reject ?_ hlost (by omega) hsize s
  exact hnest

/-- **No part of a buffer that passes the check is accepted**, if sizes have to be exact and the
buffer is as long as it declares. All that is encoded is such a buffer, up to the nesting limit.

* With the header as it was, the check and decoding refuse the first `n` bytes for their number,
  whatever the options: they are too few for a header and a tag, or fewer than declared.
* With the size `n` in the header, they refuse them as truncated, at a place between the header and
  the end, whether sizes have to be exact or not and under either policy for unknown tags. -/
theorem truncation_rejected (o : Options) (hexact : o.exactSize = true) :
    (∀ (v : Value) (bytes : List UInt8), v.DistinctKeys → v.nesting ≤ o.maxDepth.toNat →
      serialize v = .ok bytes → Intact o bytes) ∧
    ∀ bytes, Intact o bytes → ∀ n < bytes.length,
      (n < minBufferSize → ∀ o' : Options,
        check o' (bytes.take n) = .error (.bufferTooSmall n) ∧
        decode o' (bytes.take n) = .error (.bufferTooSmall n)) ∧
      (minBufferSize ≤ n → ∀ o' : Options,
        check o' (bytes.take n) =
          .error (.declaredSizeExceedsBuffer (declaredSize bytes) n) ∧
        decode o' (bytes.take n) =
          .error (.declaredSizeExceedsBuffer (declaredSize bytes) n)) ∧
      (minBufferSize ≤ n → ∀ full policy,
        TruncatedWithin n
          (check { o with exactSize := full, unknownTags := policy } (cutTo n bytes)) ∧
        TruncatedWithin n
          (decode { o with exactSize := full, unknownTags := policy } (cutTo n bytes))) := by
  refine ⟨fun v bytes hkeys hnest hs => intact_of_serialize hkeys hnest hs, ?_⟩
  intro bytes h n hlt
  have hlen := Nat.le_of_lt hlt
  refine ⟨fun hn o' => ⟨?_, ?_⟩, fun hn o' => ⟨?_, ?_⟩, fun hn full policy => ⟨?_, ?_⟩⟩
  · rw [check, decodeWith_take_of_lt hn hlen]
  · rw [decode, decodeTree, decodeWith_take_of_lt hn hlen]
    rfl
  · rw [check, decodeWith_take hn hlen (h.length ▸ hlt)]
  · rw [decode, decodeTree, decodeWith_take hn hlen (h.length ▸ hlt)]
    rfl
  · exact decodeWith_cutTo Builder.skip h hexact hn hlt full .reject ()
  · exact (decodeWith_cutTo TreeKind.value.builder h hexact hn hlt full policy ()).map
      TreeKind.value.finish

/-- Without its last byte, an object with one text is refused for its size or as truncated. -/
theorem truncation_rejected_text :
    let o : Options := { maxDepth := 1, exactSize := true }
    let v : Value := .object [("a", .text "b")]
    let bytes : List UInt8 := [11, 0, 0, 0, 0x0f, 1, 1, 0x61, 0x0c, 1, 0x62]
    (o.exactSize = true ∧ v.DistinctKeys ∧ v.nesting ≤ o.maxDepth.toNat ∧
      serialize v = .ok bytes) ∧
    check {} (bytes.take 4) = .error (.bufferTooSmall 4) ∧
    decode {} (bytes.take 10) = .error (.declaredSizeExceedsBuffer 11 10) ∧
    TruncatedWithin 10 (check o [10, 0, 0, 0, 0x0f, 1, 1, 0x61, 0x0c, 1]) ∧
    TruncatedWithin 10 (decode { maxDepth := 1, unknownTags := .null }
      [10, 0, 0, 0, 0x0f, 1, 1, 0x61, 0x0c, 1]) := by
  intro o v bytes
  have hkeys : v.DistinctKeys := ⟨by decide, trivial, trivial⟩
  have hs : serialize v = .ok bytes := serialize_eq_ok_iff.2 ⟨by decide, by decide⟩
  obtain ⟨hserialized, hcut⟩ := truncation_rejected o rfl
  have hintact := hserialized v bytes hkeys (by decide) hs
  obtain ⟨htooSmall, -, -⟩ := hcut bytes hintact 4 (by decide)
  obtain ⟨-, hexceeds, htruncated⟩ := hcut bytes hintact 10 (by decide)
  refine ⟨⟨rfl, hkeys, by decide, hs⟩, (htooSmall (by decide) {}).1,
    (hexceeds (by decide) {}).2, ?_, ?_⟩
  · exact (htruncated (by decide) true .reject).1
  · exact (htruncated (by decide) false .null).2

end WireTree
