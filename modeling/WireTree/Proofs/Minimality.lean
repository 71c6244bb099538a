import WireTree.Proofs.Body
import WireTree.Proofs.DenotedForms
import WireTree.Proofs.RealWidths

/-!
# No spelling is shorter than what is written

The size of a value against the bytes of the trees that stand for it.

* Counts in their narrowest form and numbers in their narrowest kind take no more bytes than in any
  other.
* Fields with the same key collapse, and their number and their bytes with them. Such a field may
  hold what is not a number, and that takes more bytes in the kind in which it is written than in
  the narrower of the two in which it is read. So it is counted as nothing where it stands
  (`leastFieldSize`), which is no restriction for the fields that are left.

Results:
* **`size_le_of_spells`**: a value without such reals takes no more bytes than any spelling of it.
-/

namespace WireTree

open Wire (Counted Payload Spells SpellsItems SpellsPairs)

/-- A count takes no more bytes than any form of a number that is no smaller. -/
theorem size_ofNat_le {n : UInt64} {head : List UInt8} (hn : Varint.Form n head) {count : Nat}
    (h : count ≤ n.toNat) : Varint.size (UInt64.ofNat count) ≤ head.length := by
  refine Nat.le_trans (Varint.size_mono ?_) (Varint.size_le_of_form hn)
  rwa [toNat_ofNat_of_lt (Nat.lt_of_le_of_lt h n.toNat_lt)]

theorem countedSize_le {content bs : List UInt8} (h : Counted content bs) :
    countedSize content.length ≤ bs.length := by
  obtain @⟨n, head, hn, hlen⟩ := h
  have hcount := size_ofNat_le hn (Nat.le_of_eq hlen.symm)
  rw [countedSize, List.length_append]
  omega

/-! ## Numbers -/

/-- No word that holds a signed number is narrower than the one it is written in. -/
theorem payloadWidth_ofInt_le {n : Int64} {w : Width} (hlow : -2 ^ (w.bits - 1) ≤ n.toInt)
    (hhigh : n.toInt < 2 ^ w.bits) : (Tag.ofInt n).payloadWidth ≤ w.bytes := by
  by_cases h : 0 ≤ n.toInt
  · have hn := toNat_toUInt64_of_nonneg h
    have hlt : n.toUInt64.toNat < 2 ^ w.bits := by
      apply Int.ofNat_lt.1
      rw [hn]
      exact_mod_cast hhigh
    rw [Tag.ofInt, if_pos h]
    exact Width.bytes_ofUInt_le hlt
  · rw [Tag.ofInt, if_neg h]
    exact Width.bytes_ofNegative_le hlow

/-- The number of a signed word is written in that word or a narrower one. -/
theorem payloadWidth_signExtend {w : Width} (x : BitVec w.bits) :
    (Tag.ofInt (Int64.ofBitVec (x.signExtend 64))).payloadWidth ≤ w.bytes := by
  have hn : (Int64.ofBitVec (x.signExtend 64)).toInt = x.toInt :=
    BitVec.toInt_signExtend_of_le w.bits_le
  have hlow := BitVec.le_toInt x
  have hhigh := BitVec.toInt_lt (x := x)
  apply payloadWidth_ofInt_le
  · rwa [hn]
  · rw [hn]
    cases w <;> simp only [Width.bits] at * <;> omega

/-- The number of an unsigned word that a signed number holds is written in that word or a narrower
one. -/
theorem payloadWidth_setWidth {w : Width} (hw : w ≠ .w64) (x : BitVec w.bits) :
    (Tag.ofInt (Int64.ofBitVec (x.setWidth 64))).payloadWidth ≤ w.bytes := by
  have hx := x.isLt
  have hn : (Int64.ofBitVec (x.setWidth 64)).toInt = (x.toNat : Int) := by
    show (x.setWidth 64).toInt = _
    rw [BitVec.toInt_eq_toNat_of_lt]
    all_goals
      rw [BitVec.toNat_setWidth]
      cases w <;> simp only [Width.bits, ne_eq, not_true_eq_false] at * <;> omega
  apply payloadWidth_ofInt_le
  · rw [hn]
    cases w <;> simp only [Width.bits] at * <;> omega
  · rw [hn]
    exact_mod_cast hx

theorem size_ofUInt_le (n : UInt64) : (Value.ofUInt n).size ≤ 9 := by
  rw [Value.ofUInt]
  split
  · rw [Value.size, Tag.ofInt]
    split <;> exact Nat.add_le_add_left (Width.bytes_le _) 1
  · exact Nat.add_le_add_left (Width.bytes_le _) 1

/-- A real that was read in 32 bits is written in 32 bits, if it is a number. -/
theorem payloadWidth_widen {x : Binary32} (h : x.widen.isNaN = false) :
    (Tag.ofReal x.widen).payloadWidth = 4 := by
  have hx : x.isNaN = false := by
    cases hnan : x.isNaN with
    | false => rfl
    | true => rw [Binary.isNaN_widen hnan] at h; cases h
  rw [Tag.ofReal, Binary.narrow?_widen hx]
  rfl

theorem payloadWidth_ofReal_le (x : Binary64) : (Tag.ofReal x).payloadWidth ≤ 8 := by
  rw [Tag.ofReal]
  split <;> decide

/-! ## Lists -/

/-- The size of a field. -/
def fieldSize (field : String × Value) : Nat :=
  countedSize field.1.utf8ByteSize + field.2.size

/-- The size of a field, with nothing for a value that holds what is not a number. -/
def leastFieldSize (field : String × Value) : Nat :=
  countedSize field.1.utf8ByteSize + if field.2.hasNaN then 0 else field.2.size

theorem length_fieldsBody (fields : List (String × Value)) :
    (Value.fieldsBody fields).length = (fields.map fieldSize).sum := by
  induction fields with
  | nil => rfl
  | cons field rest ih =>
    obtain ⟨k, v⟩ := field
    rw [Value.fieldsBody, List.length_append, List.length_append, length_counted,
      Utf8.length_encode, Value.length_body, ih, List.map_cons, List.sum_cons, fieldSize]

/-- Without what is not a number, fields have their size. -/
theorem sum_leastFieldSize {fields : List (String × Value)}
    (hnan : Value.fieldsHaveNaN fields = false) :
    (fields.map leastFieldSize).sum = (fields.map fieldSize).sum := by
  congr 1
  refine List.map_congr_left fun field hfield => ?_
  have hfree := Value.fieldsHaveNaN_eq_false_iff.1 hnan field hfield
  rw [leastFieldSize, fieldSize, hfree]
  rfl

section
variable {n : UInt64} {head body : List UInt8} (hn : Varint.Form n head)
include hn

theorem size_array_le {items : List Value} (hlen : n.toNat = items.length)
    (hbody : (Value.itemsBody items).length ≤ body.length) :
    (Value.array items).size ≤ 1 + (head ++ body).length := by
  have hcount := size_ofNat_le hn (Nat.le_of_eq hlen.symm)
  rw [Value.size, Value.itemsSize_eq, List.length_append]
  omega

/-- The fields of an object take no more bytes than its pairs, and their number no more than that of
the pairs. -/
theorem size_ofPairs_le {pairs : List (String × Value)} (hlen : n.toNat = pairs.length)
    (hbody : (pairs.map leastFieldSize).sum ≤ body.length)
    (hnan : (Value.ofPairs pairs).hasNaN = false) :
    (Value.ofPairs pairs).size ≤ 1 + (head ++ body).length := by
  have hcount := size_ofNat_le hn (hlen ▸ Fields.length_ofList_le pairs)
  have hfields := Fields.sum_ofList_le leastFieldSize pairs
  rw [sum_leastFieldSize hnan, ← length_fieldsBody] at hfields
  rw [Value.ofPairs, Value.size, Value.fieldsSize_eq, List.length_append]
  omega

end

/-! ## Spellings -/

variable {policy : UnknownTags}

mutual

/-- **No spelling of a value is shorter than the value is written**, unless a real in it is not a
number. -/
theorem size_le_of_spells {t : Wire} {bs : List UInt8} : Spells policy t bs →
    t.denote.hasNaN = false → t.denote.size ≤ bs.length
  | .tagged h, hnan => by
    have hpayload := size_le_of_payload h hnan
    rw [List.length_cons]
    omega
  | .unknown _ _, _ => Nat.le_refl 1

theorem size_le_of_payload {tag : Tag} {t : Wire} {bs : List UInt8} : Payload policy tag t bs →
    t.denote.hasNaN = false → t.denote.size ≤ 1 + bs.length
  | .null, _ => Nat.le_refl 1
  | .bool _, _ => Nat.le_refl 2
  | .int w x, _ => by
    rw [Width.length_encode]
    exact Nat.add_le_add_left (payloadWidth_signExtend x) 1
  | .uint hw x, _ => by
    rw [Width.length_encode]
    exact Nat.add_le_add_left (payloadWidth_setWidth hw x) 1
  | .uint64 x, _ => size_ofUInt_le (UInt64.ofBitVec x)
  | .single x, hnan => Nat.le_of_eq (congrArg (1 + ·) (payloadWidth_widen hnan))
  | .double x, _ => Nat.add_le_add_left (payloadWidth_ofReal_le x) 1
  | .text h, _ => Nat.add_le_add_left (countedSize_le h) 1
  | .bytes h, _ => Nat.add_le_add_left (countedSize_le h) 1
  | .array hn hlen h, hnan =>
    size_array_le hn (hlen.trans (Wire.length_denoteItems _).symm) (length_itemsBody_le h hnan)
  | .object hn hlen h, hnan =>
    size_ofPairs_le hn (hlen.trans (Wire.length_denotePairs _).symm) (sum_le_of_spellsPairs h) hnan

theorem length_itemsBody_le {ts : List Wire} {bs : List UInt8} : SpellsItems policy ts bs →
    Value.itemsHaveNaN (Wire.denoteItems ts) = false →
    (Value.itemsBody (Wire.denoteItems ts)).length ≤ bs.length
  | .nil, _ => Nat.le_refl 0
  | .cons h hs, hnan => by
    obtain ⟨hhead, htail⟩ := Bool.or_eq_false_iff.1 hnan
    have hfirst := size_le_of_spells h hhead
    have hrest := length_itemsBody_le hs htail
    rw [Wire.denoteItems, Value.itemsBody, List.length_append, List.length_append,
      Value.length_body]
    omega

theorem sum_le_of_spellsPairs {ts : List (String × Wire)} {bs : List UInt8} :
    SpellsPairs policy ts bs → ((Wire.denotePairs ts).map leastFieldSize).sum ≤ bs.length
  | .nil => Nat.le_refl 0
  | .cons hk h hs => by
    have hkey := countedSize_le hk
    have hrest := sum_le_of_spellsPairs hs
    rw [Utf8.length_encode] at hkey
    simp only [Wire.denotePairs, List.map_cons, List.sum_cons, leastFieldSize, List.length_append]
    -- A value with what is not a number may still be replaced, so nothing is known of its size.
    split
    · omega
    · rename_i hnan
      have hvalue := size_le_of_spells h (Bool.eq_false_iff.2 hnan)
      omega

end

end WireTree
