import WireTree.Proofs.WalkActions

/-!
# Walking over what the grammar spells

A walk is a reading of the grammar and a fold of the builder over the tree it reads.

* `Wire.build b t` is what a builder makes of a tree: every item in order, children before they are
  handed to their parent.
* `Walk.Builds b policy levels`: the bytes spell a tree that nests no deeper than `levels`, and the
  builder makes the answer of it.

Results:
* `accepts_items`, `accepts_pairs`: the loops of containers read lists of values and of pairs.
* `accepts_counted`: what a container with such a loop reads.
* **`Walk.accepts_value`**: reading a value with some levels left accepts exactly the spellings of
  trees that nest no deeper, and builds those trees.
-/

namespace WireTree

open Cursor (facing Recognises)

variable {σ ν α β : Type}

/-! ## Folding a builder over a tree -/

namespace Wire

mutual

/-- What a builder makes of a tree. -/
def build (b : Builder σ ν) : Wire → σ → ν × σ
  | null, s => b.null s
  | bool x, s => b.bool x s
  | integer n, s => b.integer n s
  | uinteger n, s => b.uinteger n s
  | real x, s => b.real x s
  | text t, s => b.text t s
  | bytes bs, s => b.bytes bs s
  | array items, s => buildItems b items (b.array items.length s)
  | object pairs, s => buildPairs b pairs (b.object pairs.length s)

/-- What a builder makes of the elements of an array that it has started. -/
def buildItems (b : Builder σ ν) : List Wire → ν × σ → ν × σ
  | [], node => node
  | t :: ts, (node, s) =>
    let (element, s) := t.build b s
    buildItems b ts (b.append node element s)

/-- What a builder makes of the pairs of an object that it has started. -/
def buildPairs (b : Builder σ ν) : List (String × Wire) → ν × σ → ν × σ
  | [], node => node
  | (k, t) :: ts, (node, s) =>
    let (value, s) := t.build b s
    buildPairs b ts (b.set node k value s)

end

end Wire

namespace Walk

/-! ## Containers -/

/-- A container is its count and its members, if these take the least number of bytes anyway. -/
theorem accepts_counted {unit : Nat} {opening : Nat → σ → ν × σ} {member : ν → Walk σ ν}
    {H : Nat → ν → List UInt8 → σ → ν × σ → Prop}
    (hmembers : ∀ n node, Accepts (times n member node) (H n node))
    (hlen : ∀ n node bs s r, H n node bs s r → n * unit ≤ bs.length) :
    Accepts (counted unit opening member) fun bs s r =>
      ∃ n head body, bs = head ++ body ∧ Varint.Form n head ∧
        H n.toNat (opening n.toNat s).1 body (opening n.toNat s).2 r := by
  have hopened : ∀ n, Accepts (building (opening n) >>= times n member) fun bs s r =>
      H n (opening n s).1 bs (opening n s).2 r := by
    intro n
    refine ((accepts_building (opening n)).bind (hmembers n)).congr fun bs s r => ⟨?_, ?_⟩
    · rintro ⟨node, s', _, bs, rfl, ⟨rfl, hnode⟩, h⟩
      rwa [← hnode]
    · intro h
      exact ⟨_, _, [], bs, rfl, ⟨rfl, rfl⟩, h⟩
  exact accepts_count_bind hopened fun n bs s r => hlen n _ bs _ r

section
variable (b : Builder σ ν) (policy : UnknownTags) (levels : Nat)

/-- The bytes spell a tree that nests no deeper than allowed, and the builder makes `r` of it. -/
def Builds (bs : List UInt8) (s : σ) (r : ν × σ) : Prop :=
  ∃ t, Wire.Spells policy t bs ∧ t.nesting ≤ levels ∧ r = t.build b s

/-- The same for the payload of a value of the given kind. -/
def BuildsPayload (tag : Tag) (bs : List UInt8) (s : σ) (r : ν × σ) : Prop :=
  ∃ t, Wire.Payload policy tag t bs ∧ t.nesting ≤ levels ∧ r = t.build b s

variable {b policy levels} {inner : Walk σ ν} (h : Accepts inner (Builds b policy levels))
include h

/-- One element is read and handed to its array. -/
theorem accepts_element (node : ν) :
    Accepts (element b inner node) fun bs s r =>
      ∃ t, Wire.Spells policy t bs ∧ t.nesting ≤ levels ∧
        r = b.append node (t.build b s).1 (t.build b s).2 := by
  refine (h.bind fun element => accepts_building (b.append node element)).congr
    fun bs s r => ⟨?_, ?_⟩
  · rintro ⟨element, s', bs₁, _, rfl, ⟨t, ht, hnest, he⟩, rfl, rfl⟩
    obtain ⟨rfl, rfl⟩ := Prod.mk.inj he
    exact ⟨t, by rwa [List.append_nil], hnest, rfl⟩
  · rintro ⟨t, ht, hnest, rfl⟩
    exact ⟨_, _, bs, [], (List.append_nil bs).symm, ⟨t, ht, hnest, rfl⟩, rfl, rfl⟩

theorem accepts_items (n : Nat) (node : ν) :
    Accepts (times n (element b inner) node) fun bs s r =>
      ∃ ts, ts.length = n ∧ Wire.SpellsItems policy ts bs ∧
        Wire.itemsNesting ts ≤ levels ∧ r = Wire.buildItems b ts (node, s) := by
  induction n generalizing node with
  | zero =>
    refine (accepts_pure node).congr fun bs s r => ⟨?_, ?_⟩
    · rintro ⟨rfl, rfl⟩
      exact ⟨[], rfl, .nil, Nat.zero_le _, rfl⟩
    · rintro ⟨ts, hlen, hs, -, rfl⟩
      obtain rfl := List.eq_nil_of_length_eq_zero hlen
      cases hs
      exact ⟨rfl, rfl⟩
  | succ n ih =>
    refine ((accepts_element h node).bind ih).congr fun bs s r => ⟨?_, ?_⟩
    · rintro ⟨_, _, bs, rest, rfl, ⟨t, ht, hnest, hr⟩, ts, rfl, hts, hnests, rfl⟩
      refine ⟨t :: ts, rfl, .cons ht hts, Nat.max_le.2 ⟨hnest, hnests⟩, ?_⟩
      rw [hr]
      rfl
    · rintro ⟨ts, hlen, hs, hnest, rfl⟩
      cases hs with
      | nil => cases hlen
      | @cons t ts bs rest ht hts =>
        obtain ⟨hnest, hnests⟩ := Nat.max_le.1 hnest
        exact ⟨_, _, bs, rest, rfl, ⟨t, ht, hnest, rfl⟩, ts, Nat.succ.inj hlen, hts, hnests, rfl⟩

/-- One pair is read and handed to its object. -/
theorem accepts_pair (node : ν) :
    Accepts (pair b inner node) fun bs s r =>
      ∃ k t key body, bs = key ++ body ∧ Wire.Counted (Utf8.encode k) key ∧
        Wire.Spells policy t body ∧ t.nesting ≤ levels ∧
        r = b.set node k (t.build b s).1 (t.build b s).2 := by
  refine (accepts_text.bind fun key =>
    h.bind fun value => accepts_building (b.set node key value)).congr fun bs s r => ⟨?_, ?_⟩
  · rintro ⟨k, _, key, _, rfl, ⟨rfl, hk⟩, value, s', body, _, rfl, ⟨t, ht, hnest, he⟩, rfl, rfl⟩
    obtain ⟨rfl, rfl⟩ := Prod.mk.inj he
    exact ⟨k, t, key, body, by rw [List.append_nil], hk, ht, hnest, rfl⟩
  · rintro ⟨k, t, key, body, rfl, hk, ht, hnest, rfl⟩
    exact ⟨k, s, key, body, rfl, ⟨rfl, hk⟩, _, _, body, [], (List.append_nil body).symm,
      ⟨t, ht, hnest, rfl⟩, rfl, rfl⟩

theorem accepts_pairs (n : Nat) (node : ν) :
    Accepts (times n (pair b inner) node) fun bs s r =>
      ∃ ts, ts.length = n ∧ Wire.SpellsPairs policy ts bs ∧
        Wire.pairsNesting ts ≤ levels ∧ r = Wire.buildPairs b ts (node, s) := by
  induction n generalizing node with
  | zero =>
    refine (accepts_pure node).congr fun bs s r => ⟨?_, ?_⟩
    · rintro ⟨rfl, rfl⟩
      exact ⟨[], rfl, .nil, Nat.zero_le _, rfl⟩
    · rintro ⟨ts, hlen, hs, -, rfl⟩
      obtain rfl := List.eq_nil_of_length_eq_zero hlen
      cases hs
      exact ⟨rfl, rfl⟩
  | succ n ih =>
    refine ((accepts_pair h node).bind ih).congr fun bs s r => ⟨?_, ?_⟩
    · rintro ⟨_, _, _, rest, rfl, ⟨k, t, key, body, rfl, hk, ht, hnest, hr⟩, ts, rfl, hts, hnests,
        rfl⟩
      refine ⟨(k, t) :: ts, rfl, .cons hk ht hts, Nat.max_le.2 ⟨hnest, hnests⟩, ?_⟩
      rw [hr]
      rfl
    · rintro ⟨ts, hlen, hs, hnest, rfl⟩
      cases hs with
      | nil => cases hlen
      | @cons k t ts key body rest hk ht hts =>
        obtain ⟨hnest, hnests⟩ := Nat.max_le.1 hnest
        exact ⟨_, _, key ++ body, rest, rfl, ⟨k, t, key, body, rfl, hk, ht, hnest, rfl⟩, ts,
          Nat.succ.inj hlen, hts, hnests, rfl⟩

theorem accepts_array : Accepts (array b inner) (BuildsPayload b policy (levels + 1) .array) := by
  refine (accepts_counted (accepts_items h) ?_).congr fun bs s r => ⟨?_, ?_⟩
  · rintro n node bs s r ⟨ts, rfl, hts, -⟩
    have := Wire.length_le_of_spellsItems hts
    omega
  · rintro ⟨n, head, body, rfl, hn, ts, hlen, hts, hnest, rfl⟩
    refine ⟨.array ts, .array hn hlen.symm hts, Nat.succ_le_succ hnest, ?_⟩
    rw [← hlen]
    rfl
  · rintro ⟨_, ht, hnest, rfl⟩
    cases ht with
    | @array n ts head body hn hlen hts =>
      refine ⟨n, head, body, rfl, hn, ts, hlen.symm, hts, Nat.le_of_succ_le_succ hnest, ?_⟩
      rw [hlen]
      rfl

theorem accepts_object :
    Accepts (object b inner) (BuildsPayload b policy (levels + 1) .object) := by
  refine (accepts_counted (accepts_pairs h) ?_).congr fun bs s r => ⟨?_, ?_⟩
  · rintro n node bs s r ⟨ts, rfl, hts, -⟩
    exact Wire.two_mul_length_le_of_spellsPairs hts
  · rintro ⟨n, head, body, rfl, hn, ts, hlen, hts, hnest, rfl⟩
    refine ⟨.object ts, .object hn hlen.symm hts, Nat.succ_le_succ hnest, ?_⟩
    rw [← hlen]
    rfl
  · rintro ⟨_, ht, hnest, rfl⟩
    cases ht with
    | @object n ts head body hn hlen hts =>
      refine ⟨n, head, body, rfl, hn, ts, hlen.symm, hts, Nat.le_of_succ_le_succ hnest, ?_⟩
      rw [hlen]
      rfl

end

/-! ## Values -/

section
variable {b : Builder σ ν} {o : Options} {levels : Nat}

theorem builds_cons_iff {policy : UnknownTags} {tag : Tag} {byte : UInt8} {bs : List UInt8} {s : σ}
    {r : ν × σ} (h : Tag.ofByte? byte = some tag) :
    Builds b policy levels (byte :: bs) s r ↔ BuildsPayload b policy levels tag bs s r := by
  simp only [Builds, BuildsPayload, Wire.spells_cons_iff, h]
  simp

/-- A payload without other values in it is read, and the builder is told of it. -/
theorem accepts_told {policy : UnknownTags} {tag : Tag} {m : Walk σ α} {G : α → List UInt8 → Prop}
    (tree : α → Wire) (hm : Accepts m fun bs s r => r.2 = s ∧ G r.1 bs)
    (hflat : ∀ x, (tree x).nesting = 0)
    (hspells : ∀ t bs, Wire.Payload policy tag t bs ↔ ∃ x, t = tree x ∧ G x bs) :
    Accepts (do let x ← m; building ((tree x).build b)) (BuildsPayload b policy levels tag) := by
  refine (hm.bind fun x => accepts_building ((tree x).build b)).congr fun bs s r => ⟨?_, ?_⟩
  · rintro ⟨x, _, bs, _, rfl, ⟨rfl, hG⟩, rfl, rfl⟩
    rw [List.append_nil]
    exact ⟨tree x, (hspells ..).2 ⟨x, rfl, hG⟩, hflat x ▸ Nat.zero_le _, rfl⟩
  · rintro ⟨t, ht, -, rfl⟩
    obtain ⟨x, rfl, hG⟩ := (hspells ..).1 ht
    exact ⟨x, s, bs, [], (List.append_nil bs).symm, ⟨rfl, hG⟩, rfl, rfl⟩

/-- Unsigned words that fit signed numbers are read as such. -/
theorem accepts_uint {policy : UnknownTags} {w : Width} (hw : w ≠ .w64) :
    Accepts (do
        let x ← reading (Cursor.word w)
        building (b.integer (Int64.ofBitVec (x.setWidth 64))))
      (BuildsPayload b policy levels (.uint w)) :=
  accepts_told (fun x => .integer (Int64.ofBitVec (x.setWidth 64)))
    (accepts_reading (Cursor.recognises_word w)) (fun _ => rfl)
    fun _ _ => Wire.payload_uint_iff hw

theorem accepts_bytes {policy : UnknownTags} :
    Accepts (do let bs ← reading (Cursor.take (← count 1)); building (b.bytes bs))
      (BuildsPayload b policy levels .bytes) := by
  have content (n : Nat) := accepts_reading_building (σ := σ) (Cursor.recognises_take n) b.bytes
  refine (accepts_count_bind content ?_).congr fun bs s r => ⟨?_, ?_⟩
  · rintro _ bs s r ⟨_, ⟨-, rfl⟩, -⟩
    omega
  · rintro ⟨n, head, _, rfl, hn, _, ⟨rfl, hlen⟩, rfl⟩
    exact ⟨.bytes _, .bytes (.mk hn hlen.symm), Nat.zero_le _, rfl⟩
  · rintro ⟨t, ht, -, rfl⟩
    obtain ⟨content, rfl, hcounted⟩ := Wire.payload_bytes_iff.1 ht
    cases hcounted with
    | mk hn hlen => exact ⟨_, _, _, rfl, hn, _, ⟨rfl, hlen.symm⟩, rfl⟩

/-- Where no level is left, no container is accepted. -/
theorem accepts_refusal {policy : UnknownTags} {tag : Tag} (h : tag.isContainer = true)
    (e : DecodeError) :
    Accepts (throw e : Walk σ ν) (BuildsPayload b policy 0 tag) := by
  refine (accepts_throw e).congr fun bs s r => ⟨False.elim, ?_⟩
  rintro ⟨t, ht, hnest, -⟩
  cases ht with
  | array => cases hnest
  | object => cases hnest
  | _ => cases h

/-- A byte that names no kind is a null or is refused. -/
theorem accepts_unknown {byte : UInt8} (hbyte : Tag.ofByte? byte = none) (offset : Nat) :
    Accepts (match o.unknownTags with
        | .reject => throw (.unknownTag byte offset)
        | .null => building b.null)
      fun bs => Builds b o.unknownTags levels (byte :: bs) := by
  cases hpolicy : o.unknownTags with
  | reject =>
    refine (accepts_throw _).congr fun bs s r => ⟨False.elim, ?_⟩
    rintro ⟨t, ht, -⟩
    obtain ⟨_, htag, -⟩ | ⟨-, hp, -⟩ := Wire.spells_cons_iff.1 ht
    · rw [hbyte] at htag
      cases htag
    · cases hp
  | null =>
    refine (accepts_building b.null).congr fun bs s r => ⟨?_, ?_⟩
    · rintro ⟨rfl, rfl⟩
      exact ⟨.null, Wire.spells_cons_iff.2 (.inr ⟨hbyte, rfl, rfl, rfl⟩), Nat.zero_le _, rfl⟩
    · rintro ⟨t, ht, -, rfl⟩
      obtain ⟨_, htag, -⟩ | ⟨-, -, rfl, rfl⟩ := Wire.spells_cons_iff.1 ht
      · rw [hbyte] at htag
        cases htag
      · exact ⟨rfl, rfl⟩

/-- What is known of the reading inside containers, and how many levels that leaves. -/
inductive Inside (b : Builder σ ν) (o : Options) : Interior σ ν → Nat → Prop
  | refused (refusal : Refusal) : Inside b o (.error refusal) 0
  | opened {inner : Walk σ ν} {levels : Nat} (h : Accepts inner (Builds b o.unknownTags levels)) :
      Inside b o (.ok inner) (levels + 1)

/-- Reading the payload of a kind accepts the payloads of that kind. -/
theorem accepts_node {inner : Interior σ ν} (hinner : Inside b o inner levels) :
    Accepts (node b o inner) (Builds b o.unknownTags levels) := by
  refine accepts_position_bind fun offset => ?_
  -- The tag byte is taken off first, and what the rest has to be depends on it.
  suffices payload : ∀ byte, Accepts _ fun bs => Builds b o.unknownTags levels (byte :: bs) by
    refine ((accepts_reading Cursor.recognises_byte).bind payload).congr fun bs s r => ⟨?_, ?_⟩
    · rintro ⟨byte, _, _, rest, rfl, ⟨rfl, rfl⟩, h⟩
      exact h
    · rintro ⟨t, ht, h⟩
      obtain ⟨byte, rest, rfl⟩ := ht.ne_nil
      exact ⟨byte, s, [byte], rest, rfl, ⟨rfl, rfl⟩, t, ht, h⟩
  intro byte
  cases htag : Tag.ofByte? byte with
  | none => exact accepts_unknown htag offset
  | some tag =>
    suffices h : Accepts _ (BuildsPayload b o.unknownTags levels tag) from
      h.congr fun bs s r => (builds_cons_iff htag).symm
    cases tag with
    | null =>
      refine (accepts_building b.null).congr fun bs s r => ⟨?_, ?_⟩
      · rintro ⟨rfl, rfl⟩
        exact ⟨.null, .null, Nat.zero_le _, rfl⟩
      · rintro ⟨_, ⟨⟩, -, rfl⟩
        exact ⟨rfl, rfl⟩
    | bool =>
      exact accepts_told (fun x => .bool (x != 0)) (accepts_reading Cursor.recognises_byte)
        (fun _ => rfl) fun _ _ => Wire.payload_bool_iff
    | int w =>
      exact accepts_told (fun x => .integer (Int64.ofBitVec (x.signExtend 64)))
        (accepts_reading (Cursor.recognises_word w)) (fun _ => rfl)
        fun _ _ => Wire.payload_int_iff
    | uint w =>
      cases w with
      | w8 => exact accepts_uint (by decide)
      | w16 => exact accepts_uint (by decide)
      | w32 => exact accepts_uint (by decide)
      | w64 =>
        exact accepts_told (fun x => .uinteger (UInt64.ofBitVec x))
          (accepts_reading (Cursor.recognises_word .w64)) (fun _ => rfl)
          fun _ _ => Wire.payload_uint64_iff
    | single =>
      exact accepts_told (fun x => .real x.widen) (accepts_reading Cursor.recognises_single)
        (fun _ => rfl) fun _ _ => Wire.payload_single_iff
    | double =>
      exact accepts_told .real (accepts_reading Cursor.recognises_double) (fun _ => rfl)
        fun _ _ => Wire.payload_double_iff
    | text =>
      exact accepts_told .text accepts_text (fun _ => rfl) fun _ _ => Wire.payload_text_iff
    | bytes => exact accepts_bytes
    | array =>
      cases hinner with
      | refused => exact accepts_refusal rfl _
      | opened h => exact accepts_array h
    | object =>
      cases hinner with
      | refused => exact accepts_refusal rfl _
      | opened h => exact accepts_object h

/-- **Reading a value accepts exactly the spellings of trees that nest no deeper than the levels
left, and builds those trees.** -/
theorem accepts_value (b : Builder σ ν) (o : Options) (refusal : Refusal) (levels : Nat) :
    Accepts (value b o refusal levels) (Builds b o.unknownTags levels) := by
  induction levels with
  | zero => exact accepts_node (.refused refusal)
  | succ levels ih => exact accepts_node (.opened ih)

theorem accepts_valueAt (b : Builder σ ν) (o : Options) (depth : UInt64) :
    Accepts (valueAt b o depth) (Builds b o.unknownTags (o.levels depth)) :=
  accepts_value b o (o.refusal depth) (o.levels depth)

end

end Walk

end WireTree
