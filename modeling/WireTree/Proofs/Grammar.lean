import WireTree.Options
import WireTree.Proofs.VarintForms
import WireTree.Tag
import WireTree.Value

/-!
# The grammar of the wire form

What the bytes of a value may be, said without a reader.

* `Wire` is the tree that bytes spell: whole numbers as signed or unsigned numbers of 64 bits, reals
  of 64 bits, and objects as the list of their pairs, with every repetition of a key.
* `Spells policy t bs`: the bytes `bs` are a value that says `t`. A value is a tag byte and a
  payload of that kind (`Payload`). Counts may be in any form, and any byte but zero is true. Where
  unknown tags count as null, a byte that names no kind is a null.
* `Wire.denote` is the value of a tree: unsigned numbers are signed ones if they fit, and of a
  repeated key the first place and the last value count.
* `Wire.nesting` is the depth to which containers nest, zero if there is none.

Results:
* `spells_cons_iff`: the first byte decides what the rest has to be.
* `payload_int_iff` and its kin: what the payload of each kind can be.
* `nesting_lt_length`, `length_le_of_spellsItems`, `two_mul_length_le_of_spellsPairs`: nesting and
  counts are bounded by the bytes that spell them.
* `Spells.of_reject`: refusing unknown tags only takes spellings away.
-/

namespace WireTree

/-- The tree that bytes spell. -/
inductive Wire where
  | null
  | bool (b : Bool)
  | integer (n : Int64)
  | uinteger (n : UInt64)
  | real (x : Binary64)
  | text (s : String)
  | bytes (bs : List UInt8)
  | array (items : List Wire)
  | object (pairs : List (String × Wire))

namespace Wire

mutual

/-- The depth to which containers nest. -/
def nesting : Wire → Nat
  | array items => itemsNesting items + 1
  | object pairs => pairsNesting pairs + 1
  | _ => 0

/-- The largest depth among the elements of an array. -/
def itemsNesting : List Wire → Nat
  | [] => 0
  | t :: ts => max t.nesting (itemsNesting ts)

/-- The largest depth among the values of an object. -/
def pairsNesting : List (String × Wire) → Nat
  | [] => 0
  | (_, t) :: ts => max t.nesting (pairsNesting ts)

end

mutual

/-- The value of a tree. -/
def denote : Wire → Value
  | null => .null
  | bool b => .bool b
  | integer n => .int n
  | uinteger n => .ofUInt n
  | real x => .real x
  | text s => .text s
  | bytes bs => .bytes bs
  | array items => .array (denoteItems items)
  | object pairs => .ofPairs (denotePairs pairs)

/-- The values of the elements of an array. -/
def denoteItems : List Wire → List Value
  | [] => []
  | t :: ts => t.denote :: denoteItems ts

/-- The values of the pairs of an object, with every repetition. -/
def denotePairs : List (String × Wire) → List (String × Value)
  | [] => []
  | (k, t) :: ts => (k, t.denote) :: denotePairs ts

end

/-- A count in any form, and as many bytes. -/
inductive Counted (content : List UInt8) : List UInt8 → Prop
  | mk {n : UInt64} {head : List UInt8} (hn : Varint.Form n head)
      (hlen : n.toNat = content.length) : Counted content (head ++ content)

mutual

/-- The bytes are a value that says the tree. -/
inductive Spells (policy : UnknownTags) : Wire → List UInt8 → Prop
  | tagged {tag : Tag} {t : Wire} {bs : List UInt8} (h : Payload policy tag t bs) :
      Spells policy t (tag.toByte :: bs)
  | unknown {b : UInt8} (hp : policy = .null) (hb : 0x0f < b.toNat) : Spells policy null [b]

/-- The bytes are the payload of a value of the given kind that says the tree. -/
inductive Payload (policy : UnknownTags) : Tag → Wire → List UInt8 → Prop
  | null : Payload policy .null null []
  | bool (b : UInt8) : Payload policy .bool (bool (b != 0)) [b]
  | int (w : Width) (x : BitVec w.bits) :
      Payload policy (.int w) (integer (Int64.ofBitVec (x.signExtend 64))) (w.encode x)
  | uint {w : Width} (hw : w ≠ .w64) (x : BitVec w.bits) :
      Payload policy (.uint w) (integer (Int64.ofBitVec (x.setWidth 64))) (w.encode x)
  | uint64 (x : BitVec 64) :
      Payload policy (.uint .w64) (uinteger (UInt64.ofBitVec x)) (Width.w64.encode x)
  | single (x : Binary32) : Payload policy .single (real x.widen) (Width.w32.encode x.bits)
  | double (x : Binary64) : Payload policy .double (real x) (Width.w64.encode x.bits)
  | text {s : String} {bs : List UInt8} (h : Counted (Utf8.encode s) bs) :
      Payload policy .text (text s) bs
  | bytes {content bs : List UInt8} (h : Counted content bs) :
      Payload policy .bytes (bytes content) bs
  | array {n : UInt64} {items : List Wire} {head body : List UInt8} (hn : Varint.Form n head)
      (hlen : n.toNat = items.length) (h : SpellsItems policy items body) :
      Payload policy .array (array items) (head ++ body)
  | object {n : UInt64} {pairs : List (String × Wire)} {head body : List UInt8}
      (hn : Varint.Form n head) (hlen : n.toNat = pairs.length)
      (h : SpellsPairs policy pairs body) : Payload policy .object (object pairs) (head ++ body)

/-- The bytes are values one after the other. -/
inductive SpellsItems (policy : UnknownTags) : List Wire → List UInt8 → Prop
  | nil : SpellsItems policy [] []
  | cons {t : Wire} {ts : List Wire} {bs rest : List UInt8} (h : Spells policy t bs)
      (hs : SpellsItems policy ts rest) : SpellsItems policy (t :: ts) (bs ++ rest)

/-- The bytes are pairs one after the other, each a text without a tag and a value. -/
inductive SpellsPairs (policy : UnknownTags) : List (String × Wire) → List UInt8 → Prop
  | nil : SpellsPairs policy [] []
  | cons {k : String} {t : Wire} {ts : List (String × Wire)} {key bs rest : List UInt8}
      (hk : Counted (Utf8.encode k) key) (h : Spells policy t bs)
      (hs : SpellsPairs policy ts rest) : SpellsPairs policy ((k, t) :: ts) (key ++ bs ++ rest)

end

/-! ## The first byte -/

theorem ofByte?_eq_none_iff {b : UInt8} : Tag.ofByte? b = none ↔ 0x0f < b.toNat := by
  constructor
  · intro h
    unfold Tag.ofByte? at h
    split at h <;> cases h
    simp only [imp_false] at *
    omega
  · intro h
    unfold Tag.ofByte?
    split
    case h_17 => rfl
    all_goals omega

/-- **The first byte decides what the rest has to be.** -/
theorem spells_cons_iff {policy : UnknownTags} {t : Wire} {b : UInt8} {bs : List UInt8} :
    Spells policy t (b :: bs) ↔
      (∃ tag, Tag.ofByte? b = some tag ∧ Payload policy tag t bs) ∨
        (Tag.ofByte? b = none ∧ policy = .null ∧ t = null ∧ bs = []) := by
  constructor
  · intro h
    cases h with
    | tagged h => exact .inl ⟨_, Tag.ofByte?_toByte _, h⟩
    | unknown hp hb => exact .inr ⟨ofByte?_eq_none_iff.2 hb, hp, rfl, rfl⟩
  · rintro (⟨tag, hb, h⟩ | ⟨hb, hp, rfl, rfl⟩)
    · rw [← Tag.toByte_of_ofByte? hb]
      exact .tagged h
    · exact .unknown hp (ofByte?_eq_none_iff.1 hb)

theorem Spells.ne_nil {policy : UnknownTags} {t : Wire} {bs : List UInt8}
    (h : Spells policy t bs) : ∃ b rest, bs = b :: rest := by
  cases h <;> exact ⟨_, _, rfl⟩

theorem Counted.length_pos {content bs : List UInt8} (h : Counted content bs) :
    0 < bs.length := by
  cases h with
  | mk hn hlen =>
    have := hn.length_pos
    rw [List.length_append]
    omega

/-! ## The payload of each kind -/

section
variable {policy : UnknownTags} {t : Wire} {bs : List UInt8}

theorem payload_bool_iff :
    Payload policy .bool t bs ↔ ∃ b : UInt8, t = bool (b != 0) ∧ bs = [b] := by
  constructor
  · intro h
    cases h with
    | bool b => exact ⟨b, rfl, rfl⟩
  · rintro ⟨b, rfl, rfl⟩
    exact .bool b

theorem payload_int_iff {w : Width} :
    Payload policy (.int w) t bs ↔
      ∃ x : BitVec w.bits, t = integer (Int64.ofBitVec (x.signExtend 64)) ∧ bs = w.encode x := by
  constructor
  · intro h
    cases h with
    | int _ x => exact ⟨x, rfl, rfl⟩
  · rintro ⟨x, rfl, rfl⟩
    exact .int w x

/-- The unsigned kinds that fit signed numbers are read as such. -/
theorem payload_uint_iff {w : Width} (hw : w ≠ .w64) :
    Payload policy (.uint w) t bs ↔
      ∃ x : BitVec w.bits, t = integer (Int64.ofBitVec (x.setWidth 64)) ∧ bs = w.encode x := by
  constructor
  · intro h
    cases h with
    | uint _ x => exact ⟨x, rfl, rfl⟩
    | uint64 => exact absurd rfl hw
  · rintro ⟨x, rfl, rfl⟩
    exact .uint hw x

theorem payload_uint64_iff :
    Payload policy (.uint .w64) t bs ↔
      ∃ x : BitVec 64, t = uinteger (UInt64.ofBitVec x) ∧ bs = Width.w64.encode x := by
  constructor
  · intro h
    cases h with
    | uint hw => exact absurd rfl hw
    | uint64 x => exact ⟨x, rfl, rfl⟩
  · rintro ⟨x, rfl, rfl⟩
    exact .uint64 x

theorem payload_single_iff :
    Payload policy .single t bs ↔
      ∃ x : Binary32, t = real x.widen ∧ bs = Width.w32.encode x.bits := by
  constructor
  · intro h
    cases h with
    | single x => exact ⟨x, rfl, rfl⟩
  · rintro ⟨x, rfl, rfl⟩
    exact .single x

theorem payload_double_iff :
    Payload policy .double t bs ↔ ∃ x : Binary64, t = real x ∧ bs = Width.w64.encode x.bits := by
  constructor
  · intro h
    cases h with
    | double x => exact ⟨x, rfl, rfl⟩
  · rintro ⟨x, rfl, rfl⟩
    exact .double x

theorem payload_text_iff :
    Payload policy .text t bs ↔ ∃ s, t = text s ∧ Counted (Utf8.encode s) bs := by
  constructor
  · intro h
    cases h with
    | text h => exact ⟨_, rfl, h⟩
  · rintro ⟨s, rfl, h⟩
    exact .text h

theorem payload_bytes_iff :
    Payload policy .bytes t bs ↔ ∃ content, t = bytes content ∧ Counted content bs := by
  constructor
  · intro h
    cases h with
    | bytes h => exact ⟨_, rfl, h⟩
  · rintro ⟨content, rfl, h⟩
    exact .bytes h

end

/-! ## Bounds by the number of bytes -/

mutual

/-- Every container takes a byte of its own. -/
theorem nesting_lt_length {policy : UnknownTags} {t : Wire} {bs : List UInt8} :
    Spells policy t bs → t.nesting < bs.length
  | .tagged h => Nat.lt_succ_of_le (nesting_le_length_of_payload h)
  | .unknown .. => Nat.one_pos

theorem nesting_le_length_of_payload {policy : UnknownTags} {tag : Tag} {t : Wire}
    {bs : List UInt8} : Payload policy tag t bs → t.nesting ≤ bs.length
  | .null | .bool _ | .int .. | .uint .. | .uint64 _ | .single _ | .double _ | .text _
  | .bytes _ => Nat.zero_le _
  | .array hn _ h => by
    have := hn.length_pos
    have := itemsNesting_le_length h
    simp only [nesting, List.length_append]
    omega
  | .object hn _ h => by
    have := hn.length_pos
    have := pairsNesting_le_length h
    simp only [nesting, List.length_append]
    omega

theorem itemsNesting_le_length {policy : UnknownTags} {ts : List Wire} {bs : List UInt8} :
    SpellsItems policy ts bs → itemsNesting ts ≤ bs.length
  | .nil => Nat.zero_le _
  | .cons h hs => by
    have := nesting_lt_length h
    have := itemsNesting_le_length hs
    simp only [itemsNesting, List.length_append]
    omega

theorem pairsNesting_le_length {policy : UnknownTags} {ts : List (String × Wire)}
    {bs : List UInt8} : SpellsPairs policy ts bs → pairsNesting ts ≤ bs.length
  | .nil => Nat.zero_le _
  | .cons _ h hs => by
    have := nesting_lt_length h
    have := pairsNesting_le_length hs
    simp only [pairsNesting, List.length_append]
    omega

end

/-- Every element takes a byte at least. -/
theorem length_le_of_spellsItems {policy : UnknownTags} {ts : List Wire} {bs : List UInt8} :
    SpellsItems policy ts bs → ts.length ≤ bs.length
  | .nil => Nat.le_refl 0
  | .cons h hs => by
    have := nesting_lt_length h
    have := length_le_of_spellsItems hs
    simp only [List.length_cons, List.length_append]
    omega

/-- Every pair takes two bytes at least. -/
theorem two_mul_length_le_of_spellsPairs {policy : UnknownTags} {ts : List (String × Wire)}
    {bs : List UInt8} : SpellsPairs policy ts bs → ts.length * 2 ≤ bs.length
  | .nil => Nat.le_refl 0
  | .cons hk h hs => by
    have := hk.length_pos
    have := nesting_lt_length h
    have := two_mul_length_le_of_spellsPairs hs
    simp only [List.length_cons, List.length_append]
    omega

/-! ## Policies -/

mutual

/-- What is a value where unknown tags are refused is one under either policy. -/
theorem Spells.of_reject {policy : UnknownTags} {t : Wire} {bs : List UInt8} :
    Spells .reject t bs → Spells policy t bs
  | .tagged h => .tagged h.of_reject
  | .unknown hp _ => nomatch hp

theorem Payload.of_reject {policy : UnknownTags} {tag : Tag} {t : Wire} {bs : List UInt8} :
    Payload .reject tag t bs → Payload policy tag t bs
  | .null => .null
  | .bool b => .bool b
  | .int w x => .int w x
  | .uint hw x => .uint hw x
  | .uint64 x => .uint64 x
  | .single x => .single x
  | .double x => .double x
  | .text h => .text h
  | .bytes h => .bytes h
  | .array hn hlen h => .array hn hlen h.of_reject
  | .object hn hlen h => .object hn hlen h.of_reject

theorem SpellsItems.of_reject {policy : UnknownTags} {ts : List Wire} {bs : List UInt8} :
    SpellsItems .reject ts bs → SpellsItems policy ts bs
  | .nil => .nil
  | .cons h hs => .cons h.of_reject hs.of_reject

theorem SpellsPairs.of_reject {policy : UnknownTags} {ts : List (String × Wire)}
    {bs : List UInt8} : SpellsPairs .reject ts bs → SpellsPairs policy ts bs
  | .nil => .nil
  | .cons hk h hs => .cons hk h.of_reject hs.of_reject

end

end Wire

end WireTree
