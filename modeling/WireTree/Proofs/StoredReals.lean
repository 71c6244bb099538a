import WireTree.Proofs.BodySpelling
import WireTree.Proofs.RealRounding
import WireTree.Proofs.WalkGrammar

/-!
# How reals are stored

The tag of a real, the bytes that are written for it and what is read from them.

* `Binary64.StoredAs x tag payload`: the tag chosen for `x` is `tag`, writing `x` to any buffer
  appends the tag and the payload, and reading takes exactly these bytes off what is ahead, in any
  place where a value may stand, and tells the builder of `x`, bit by bit.

A real is written in 32 bits if some 32-bit pattern widens to it. There is only one, and it is what
the real is rounded to.

Results:
* `storedAs_single`, `storedAs_double`: the two ways in which a real is stored.
* **`real_stored`**: which of them a real takes, and that both are exact.
-/

namespace WireTree

open Binary
open Cursor (facing)

namespace Binary64

/-- The real is written with this tag and this payload, and read from them. -/
structure StoredAs (x : Binary64) (tag : Tag) (payload : List UInt8) : Prop where
  tag_eq : Tag.ofReal x = tag
  written : ∀ b : AppendBuffer, (b.putReal x).pending = b.pending ++ tag.toByte :: payload
  read : ∀ {σ ν : Type} (b : Builder σ ν) (o : Options) (depth : UInt64) (pos : Nat)
    (tail : List UInt8) (s : σ),
    Walk.valueAt b o depth ⟨facing pos (tag.toByte :: payload ++ tail), s⟩ =
      .ok (b.real x s).1 ⟨facing (pos + (1 + payload.length)) tail, (b.real x s).2⟩

variable {x : Binary64} {y : Binary32}

theorem ofReal_eq_single_iff : Tag.ofReal x = .single ↔ x.narrow?.isSome = true := by
  unfold Tag.ofReal
  split_ifs with h
  · exact iff_of_true rfl h
  · exact iff_of_false nofun h

/-- What is written for a real is read back from it. -/
theorem storedAs_of_bodyOfReal {tag : Tag} {payload : List UInt8} (htag : Tag.ofReal x = tag)
    (hbody : Value.bodyOfReal x = tag.toByte :: payload) : StoredAs x tag payload where
  tag_eq := htag
  written b := by
    rw [← hbody]
    exact (AppendBuffer.extends_putReal b x).pending
  read b o depth pos tail s := by
    have hspells : Wire.Spells o.unknownTags (.real x) _ := spells_bodyOfReal x
    rw [hbody] at hspells
    -- A real opens no container, so any number of levels will do.
    have hbuilds : Walk.Builds b o.unknownTags (o.levels depth) (tag.toByte :: payload) s
        (b.real x s) := ⟨.real x, hspells, Nat.zero_le _, rfl⟩
    rw [Nat.add_comm 1]
    exact (Walk.accepts_valueAt b o depth).eq_ok hbuilds pos tail

/-- A real that 32 bits say is stored in them. -/
theorem storedAs_single (h : x.narrow? = some y) :
    StoredAs x .single (Width.w32.encode y.bits) :=
  storedAs_of_bodyOfReal (by rw [Tag.ofReal, h]; rfl) (by rw [Value.bodyOfReal, h])

/-- Every other one is stored in its own bits. -/
theorem storedAs_double (h : x.narrow? = none) : StoredAs x .double (Width.w64.encode x.bits) :=
  storedAs_of_bodyOfReal (by rw [Tag.ofReal, h]; rfl) (by rw [Value.bodyOfReal, h])

theorem isFinite_eq_false_iff : x.isFinite = false ↔ x.exponent = 2047 := by
  simp [isFinite]

/-- The infinities are among the reals that 32 bits say. -/
theorem narrow?_of_infinite (hnan : x.isNaN = false) (h : x.isFinite = false) :
    x.narrow? = some (.ofParts x.negative 255 0) := by
  have he := isFinite_eq_false_iff.1 h
  have hm : x.fraction = 0 := by simpa [isNaN, he] using hnan
  simp only [narrow?]
  rw [he, hm]
  rfl

/-- A number takes 32 bits exactly if they say it. -/
theorem ofReal_eq_single_iff_exists (h : x.isNaN = false) :
    Tag.ofReal x = .single ↔ ∃ y : Binary32, y.widen = x := by
  rw [ofReal_eq_single_iff, Option.isSome_iff_exists]
  refine exists_congr fun y => narrow?_eq_some_iff.trans (and_iff_right_of_imp ?_)
  rintro rfl
  exact Bool.eq_false_of_not_eq_true fun hy => by simp [isNaN_widen hy] at h

/-- **A real is stored exactly, and in 32 bits wherever these say it.**

A number is rounded to the nearest of 32 bits, and it takes 32 bits if it equals what comes out.
This is so exactly if some pattern widens to it, which is then the rounded one and is written.
Infinities take 32 bits, and so do the finite numbers with at most 24 bits of significand in front
of a last bit from `2 ^ (-149)` up to `2 ^ 104`, the zeros of both signs and the subnormal numbers
among them. All other reals, and what is not a number, are written in their own 64 bits. The bits
that are read are those of the real in both widths.

And the bytes of every 32-bit pattern that is a number are read as what it widens to, and written
for that again. -/
theorem real_stored (x : Binary64) :
    (x.isNaN = false →
      RoundsTo x x.nearest ∧
      (Tag.ofReal x = .single ↔ x.nearest.widen.equals x = true) ∧
      (Tag.ofReal x = .single ↔ ∃ y : Binary32, y.widen = x) ∧
      (x.isFinite = false → Tag.ofReal x = .single) ∧
      (x.isFinite = true → (Tag.ofReal x = .single ↔
        ∃ k j, k < 2 ^ 24 ∧ j ≤ 253 ∧ x.magnitude = k * (2 ^ j * singleUnit))) ∧
      ∀ y : Binary32, y.widen = x → y = x.nearest ∧ StoredAs x .single (Width.w32.encode y.bits)) ∧
    (Tag.ofReal x ≠ .single → StoredAs x .double (Width.w64.encode x.bits)) ∧
    (x.isNaN = true → StoredAs x .double (Width.w64.encode x.bits)) ∧
    ∀ y : Binary32, y.isNaN = false → StoredAs y.widen .single (Width.w32.encode y.bits) := by
  refine ⟨fun hnan => ⟨roundsTo_nearest hnan, ?_, ofReal_eq_single_iff_exists hnan, ?_, ?_, ?_⟩,
    ?_, ?_, ?_⟩
  · rw [ofReal_eq_single_iff]
    exact isSome_narrow?_iff
  · intro hfinite
    rw [ofReal_eq_single_iff, narrow?_of_infinite hnan hfinite]
    rfl
  · intro hfinite
    rw [ofReal_eq_single_iff_exists hnan]
    exact exists_widen_iff hfinite
  · intro y hy
    have hy' : y.isNaN = false := Bool.eq_false_of_not_eq_true fun h => by
      simp [← hy, isNaN_widen h] at hnan
    refine ⟨?_, storedAs_single (narrow?_eq_some_iff.2 ⟨hy', hy⟩)⟩
    rw [← hy, nearest_widen hy']
  · intro h
    rw [ne_eq, ofReal_eq_single_iff] at h
    exact storedAs_double (Option.not_isSome_iff_eq_none.1 h)
  · intro hnan
    exact storedAs_double (narrow?_of_isNaN hnan)
  · intro y hy
    exact storedAs_single (narrow?_widen hy)

/-- Five and a half, the negative zero and the least subnormal number of 32 bits take 32 bits; one
tenth and what is not a number take 64. -/
theorem real_stored_examples :
    StoredAs ⟨0x4016_0000_0000_0000⟩ .single [0, 0, 0xb0, 0x40] ∧
    StoredAs ⟨0x8000_0000_0000_0000⟩ .single [0, 0, 0, 0x80] ∧
    StoredAs ⟨0x36a0_0000_0000_0000⟩ .single [1, 0, 0, 0] ∧
    StoredAs ⟨0x3fb9_9999_9999_999a⟩ .double [0x9a, 0x99, 0x99, 0x99, 0x99, 0x99, 0xb9, 0x3f] ∧
    StoredAs ⟨0x7ff8_0000_0000_0001⟩ .double [1, 0, 0, 0, 0, 0, 0xf8, 0x7f] := by
  have hsingle : ∀ x : Binary64, x.isNaN = false → ∀ y : Binary32, y.widen = x →
      StoredAs x .single (Width.w32.encode y.bits) := fun x hx y hy =>
    (((real_stored x).1 hx).2.2.2.2.2 y hy).2
  refine ⟨?_, ?_, ?_, ?_, ?_⟩
  · exact hsingle ⟨0x4016_0000_0000_0000⟩ (by decide) ⟨0x40b0_0000⟩ (by decide)
  · exact hsingle ⟨0x8000_0000_0000_0000⟩ (by decide) ⟨0x8000_0000⟩ (by decide)
  · exact hsingle ⟨0x36a0_0000_0000_0000⟩ (by decide) ⟨1⟩ (by decide)
  · exact (real_stored ⟨0x3fb9_9999_9999_999a⟩).2.1 (by decide)
  · exact (real_stored ⟨0x7ff8_0000_0000_0001⟩).2.2.1 (by decide)

end Binary64

end WireTree
