import WireTree.Builder.CallLog
import WireTree.Proofs.Region
import WireTree.Proofs.TreeKinds
import WireTree.Proofs.WalkSteps

/-!
# Unknown tags as nulls

Reading an unknown tag as a null is the same as finding the tag of a null in its place.

* `Options.lenient` reads unknown tags as nulls, as `Options.strict` refuses them.
* `Cursor.withNull p c` is a cursor over the same window with the tag of a null at position `p`.
* `Walk.Foretells c s m result` is what the result of a strict walk tells of the lenient walk `m`.
  Where the first succeeds or fails for another reason, the second does the same. Where the first
  meets an unknown tag, the second cannot tell the window from the one with a null there.
* `Walk.Replaces m₁ m₂`: from everywhere, the strict walk `m₁` tells that of the lenient walk `m₂`.
* `replaceUnknown o bytes` is the buffer with a null in place of the unknown tag for which it is
  refused, if that is the reason, and `replaceAllUnknown` goes on until it no longer is.

A byte that has been passed is not looked at again, and what is passed does not depend on the bytes
that follow. So the strict walk up to the unknown tag is that of the lenient one in both windows,
and behind the tag the two windows are the same.

Results:
* **`Walk.replaces_root`**: strict and lenient walks are related in this way.
* **`decode_lenient`**: so the lenient policy is exactly the substitution of nulls.
-/

namespace WireTree

open Cursor (Ahead)

variable {σ ν α β : Type}

/-- The same options with unknown tags read as nulls. -/
def Options.lenient (o : Options) : Options :=
  { o with unknownTags := .null }

namespace Cursor

/-! ## Windows with a null -/

/-- The same window with the tag of a null at position `p`, if that is ahead. -/
def withNull (p : Nat) (c : Cursor) : Cursor where
  pos := c.pos
  stop := c.stop
  rest := c.rest.set (p - c.pos) Tag.null.toByte
  length_rest := by rw [List.length_set, c.length_rest]

/-- A null behind bytes that are passed is behind them still. -/
theorem advance_withNull {c : Cursor} {n p : Nat} (h : c.pos + n ≤ p) :
    (c.withNull p).advance n = (c.advance n).withNull p := by
  have hlt : ¬p - c.pos < n := by omega
  simp only [withNull, advance, List.drop_set, if_neg hlt, Nat.sub_add_eq]

/-- Behind the null, the window is as it was. -/
theorem advance_withNull_self (c : Cursor) : (c.withNull c.pos).advance 1 = c.advance 1 := by
  simp only [withNull, advance, List.drop_set, Nat.sub_self, Nat.zero_lt_one, if_true]

theorem take_withNull {c : Cursor} {n p : Nat} (h : c.pos + n ≤ p) :
    (c.withNull p).rest.take n = c.rest.take n := by
  refine List.take_set_of_le ?_
  omega

/-- What the action passes is all it looks at, so that it does not see a null behind that. -/
def Overlooks (m : Read α) : Prop :=
  ∀ {c after x}, m c = .ok x after →
    Ahead c after ∧ ∀ p, after.pos ≤ p → m (c.withNull p) = .ok x (after.withNull p)

theorem Ahead.pos_le {c c' : Cursor} (h : Ahead c c') : c.pos ≤ c'.pos := by
  obtain ⟨n, -, rfl⟩ := h
  exact Nat.le_add_right ..

theorem Overlooks.bind {m : Read α} {f : α → Read β} (hm : Overlooks m)
    (hf : ∀ x, Overlooks (f x)) : Overlooks (m >>= f) := by
  intro c after y h
  obtain ⟨x, c', hx, hy⟩ := bind_eq_ok_iff.1 h
  obtain ⟨hahead, hm'⟩ := hm hx
  obtain ⟨hahead', hf'⟩ := hf x hy
  refine ⟨hahead.trans hahead', fun p hp => ?_⟩
  rw [bind_of_eq_ok (hm' p (Nat.le_trans hahead'.pos_le hp))]
  exact hf' p hp

theorem overlooks_take (n : Nat) : Overlooks (take n) := by
  intro c after x h
  have hconfined := confined_take n c
  rw [h] at hconfined
  refine ⟨hconfined, fun p hp => ?_⟩
  by_cases hle : c.pos + n ≤ c.stop
  · rw [take_of_le hle] at h
    cases h
    have hp' : c.pos + n ≤ p := hp
    have htake : take n (c.withNull p) = .ok ((c.withNull p).rest.take n) _ := take_of_le hle
    rw [htake, take_withNull hp', advance_withNull hp']
  · rw [take_of_lt (Nat.lt_of_not_le hle)] at h
    cases h

theorem overlooks_text (n : Nat) : Overlooks (text n) := by
  intro c after s h
  simp only [text] at h ⊢
  split at h
  · cases h
  · rename_i bytes c' htake
    split at h
    · rename_i hs
      cases h
      obtain ⟨hahead, hsame⟩ := overlooks_take n htake
      refine ⟨hahead, fun p hp => ?_⟩
      rw [hsame p hp]
      simp only [hs]
    · cases h

theorem closed_overlooks : Closed Overlooks where
  pure := by
    intro α x c after y h
    cases h
    exact ⟨.refl c, fun p _ => rfl⟩
  bind := Overlooks.bind
  take := overlooks_take
  text := overlooks_text

/-- At position `p`, which is ahead, stands the byte `tag`, which names no kind. -/
def UnknownAhead (c : Cursor) (tag : UInt8) (p : Nat) : Prop :=
  c.pos ≤ p ∧ c.rest[p - c.pos]? = some tag ∧ Tag.ofByte? tag = none

theorem UnknownAhead.of_ahead {c c' : Cursor} {tag : UInt8} {p : Nat} (h : Ahead c c')
    (hunknown : UnknownAhead c' tag p) : UnknownAhead c tag p := by
  obtain ⟨n, -, rfl⟩ := h
  obtain ⟨hpos, htag, hnone⟩ := hunknown
  have hpos' : c.pos + n ≤ p := hpos
  have hshift : n + (p - (c.pos + n)) = p - c.pos := by omega
  refine ⟨Nat.le_trans (Nat.le_add_right ..) hpos', ?_, hnone⟩
  rw [← htag, advance, List.getElem?_drop, hshift]

end Cursor

namespace Walk

open Cursor (Overlooks UnknownAhead)

/-! ## Strict and lenient walks -/

/-- What the result of a strict walk from `c` and `s` tells of the lenient walk `m`. -/
inductive Foretells (c : Cursor) (s : σ) (m : Walk σ α) :
    EStateM.Result DecodeError (State σ) α → Prop
  /-- The same succeeds, and no null behind what is passed is seen. -/
  | ok {x : α} {after : State σ} (hsame : m ⟨c, s⟩ = .ok x after) (hahead : Ahead c after.cursor)
      (hnull : ∀ p, after.cursor.pos ≤ p →
        m ⟨c.withNull p, s⟩ = .ok x ⟨after.cursor.withNull p, after.built⟩) :
      Foretells c s m (.ok x after)
  /-- The unknown tag stands for a null. -/
  | unknown {tag : UInt8} {p : Nat} {after : State σ} (hunknown : UnknownAhead c tag p)
      (hnull : m ⟨c, s⟩ = m ⟨c.withNull p, s⟩) : Foretells c s m (.error (.unknownTag tag p) after)
  /-- Any other error is the same. -/
  | error {e : DecodeError} {after : State σ} (hother : ∀ tag p, e ≠ .unknownTag tag p)
      (hsame : m ⟨c, s⟩ = .error e after) : Foretells c s m (.error e after)

/-- From everywhere, the strict walk `m₁` tells of the lenient walk `m₂`. -/
def Replaces (m₁ m₂ : Walk σ α) : Prop :=
  ∀ c s, Foretells c s m₂ (m₁ ⟨c, s⟩)

theorem Replaces.bind {m₁ m₂ : Walk σ α} {f₁ f₂ : α → Walk σ β} (hm : Replaces m₁ m₂)
    (hf : ∀ x, Replaces (f₁ x) (f₂ x)) : Replaces (m₁ >>= f₁) (m₂ >>= f₂) := by
  intro c s
  show Foretells c s _ (EStateM.bind m₁ f₁ _)
  unfold EStateM.bind
  have h := hm c s
  generalize m₁ ⟨c, s⟩ = result at h
  cases h with
  | error hother hsame => exact .error hother (bind_of_eq_error hsame f₂)
  | @unknown tag p after hunknown hnull =>
    refine .unknown hunknown ?_
    show EStateM.bind m₂ f₂ _ = EStateM.bind m₂ f₂ _
    rw [EStateM.bind, hnull, EStateM.bind]
  | @ok x after hsame hahead hnull =>
    have hx := hf x after.cursor after.built
    show Foretells c s _ (f₁ x after)
    generalize f₁ x after = result at hx
    cases hx with
    | error hother hsame' => exact .error hother ((bind_of_eq_ok hsame f₂).trans hsame')
    | @unknown tag p _ hunknown hnull' =>
      refine .unknown (hunknown.of_ahead hahead) ?_
      rw [bind_of_eq_ok hsame, bind_of_eq_ok (hnull p hunknown.1)]
      exact hnull'
    | ok hsame' hahead' hnull' =>
      refine .ok ((bind_of_eq_ok hsame f₂).trans hsame') (hahead.trans hahead') fun p hp => ?_
      rw [bind_of_eq_ok (hnull p (Nat.le_trans hahead'.pos_le hp))]
      exact hnull' p hp

theorem replaces_pure (x : α) : Replaces (pure x : Walk σ α) (pure x) :=
  fun c _ => .ok rfl (.refl c) fun _ _ => rfl

theorem replaces_building (operation : σ → α × σ) :
    Replaces (building operation) (building operation) :=
  fun c _ => .ok rfl (.refl c) fun _ _ => rfl

theorem replaces_remaining : Replaces (remaining : Walk σ Nat) remaining :=
  fun c _ => .ok rfl (.refl c) fun _ _ => rfl

/-- An error that is not about a tag is the same in both. -/
theorem replaces_throw {e : DecodeError} (he : ∀ tag p, e ≠ .unknownTag tag p) :
    Replaces (throw e : Walk σ α) (throw e) :=
  fun _ _ => .error he rfl

theorem refusal_ne_unknownTag (e : ReadError) (offset : Nat) (tag : UInt8) (p : Nat) :
    e.refusal offset ≠ .unknownTag tag p := by
  cases e <;> nofun

theorem error_ne_unknownTag (refusal : Refusal) (offset : Nat) (tag : UInt8) (p : Nat) :
    refusal.error offset ≠ .unknownTag tag p := by
  cases refusal <;> nofun

theorem replaces_reading {m : Cursor.Read α} (hm : Overlooks m) :
    Replaces (reading m : Walk σ α) (reading m) := by
  intro c s
  cases hresult : m c with
  | error e after =>
    have hread : reading m ⟨c, s⟩ = .error (e.refusal c.pos) ⟨after, s⟩ := by
      simp only [reading, hresult]
    rw [hread]
    exact .error (refusal_ne_unknownTag e c.pos) hread
  | ok x after =>
    have hread : reading m ⟨c, s⟩ = .ok x ⟨after, s⟩ := by
      simp only [reading, hresult]
    obtain ⟨hahead, hnull⟩ := hm hresult
    rw [hread]
    refine .ok hread hahead fun p hp => ?_
    simp only [reading, hnull p hp]

/-- A count is compared with the number of bytes ahead, whatever these are. -/
theorem replaces_count (unit : Nat) : Replaces (count unit : Walk σ Nat) (count unit) := by
  intro c s
  have hcount := count_eq unit c s
  cases hresult : Varint.read c with
  | error e after =>
    simp only [hresult] at hcount
    rw [hcount]
    exact .error (refusal_ne_unknownTag e c.pos) hcount
  | ok n after =>
    simp only [hresult] at hcount
    obtain ⟨hahead, hnull⟩ := Cursor.closed_overlooks.varint hresult
    by_cases hle : n.toNat * unit ≤ after.remaining
    · rw [if_pos hle] at hcount
      rw [hcount]
      refine .ok hcount hahead fun p hp => ?_
      rw [count_eq, hnull p hp]
      exact if_pos hle
    · rw [if_neg hle] at hcount
      rw [hcount]
      exact .error nofun hcount

theorem coupling_replaces (b : Builder σ ν) : Coupling Overlooks Replaces b b where
  cursor := Cursor.closed_overlooks
  pure := replaces_pure
  bind := Replaces.bind
  reading := replaces_reading
  count := replaces_count
  answer := fun r => replaces_building (b.answer r)

/-! ## Values -/

section
variable {b : Builder σ ν} {o : Options}

/-- Behind the tag of a kind, a strict walk and a lenient one do the same. -/
theorem replaces_afterTag {inner₁ inner₂ : Interior σ ν}
    (h : Interior.Rel Replaces inner₁ inner₂) {byte : UInt8} {tag : Tag}
    (hbyte : Tag.ofByte? byte = some tag) (offset : Nat) :
    Replaces (afterTag b o.strict inner₁ offset byte)
      (afterTag b o.lenient inner₂ offset byte) := by
  simp only [afterTag, hbyte]
  cases h with
  | refused refusal =>
    simp only
    split
    · exact replaces_throw (error_ne_unknownTag refusal offset)
    · exact (coupling_replaces b).told tag
  | opened h =>
    simp only
    split
    · exact (coupling_replaces b).container _ _ h tag
    · exact (coupling_replaces b).told tag

/-- A null that is not the next byte is still ahead behind that byte. -/
theorem node_withNull {inner : Interior σ ν} {c : Cursor} {byte : UInt8} {rest : List UInt8}
    (hrest : c.rest = byte :: rest) {p : Nat} (hp : c.pos + 1 ≤ p) (s : σ) :
    node b o inner ⟨c.withNull p, s⟩ =
      afterTag b o inner c.pos byte ⟨(c.advance 1).withNull p, s⟩ := by
  have hset : (c.withNull p).rest = byte :: rest.set (p - c.pos - 1) Tag.null.toByte := by
    show c.rest.set (p - c.pos) _ = _
    rw [hrest, show p - c.pos = p - c.pos - 1 + 1 by omega, List.set_cons_succ]
    rfl
  rw [node_eq, hset, ← Cursor.advance_withNull hp]
  rfl

/-- An unknown tag that is refused and a null in its place leave the same to be read. -/
theorem node_lenient_unknown {inner : Interior σ ν} {c : Cursor} {byte : UInt8}
    {rest : List UInt8} (hrest : c.rest = byte :: rest) (hbyte : Tag.ofByte? byte = none) (s : σ) :
    node b o.lenient inner ⟨c, s⟩ = node b o.lenient inner ⟨c.withNull c.pos, s⟩ := by
  have hset : (c.withNull c.pos).rest = Tag.null.toByte :: rest := by
    show c.rest.set (c.pos - c.pos) _ = _
    rw [hrest, Nat.sub_self, List.set_cons_zero]
  rw [node_eq, hrest, node_eq, hset, Cursor.advance_withNull_self]
  simp only [afterTag, hbyte, Tag.ofByte?_toByte]
  cases inner <;> rfl

theorem replaces_node {inner₁ inner₂ : Interior σ ν}
    (h : Interior.Rel Replaces inner₁ inner₂) :
    Replaces (node b o.strict inner₁) (node b o.lenient inner₂) := by
  intro c s
  rw [node_eq]
  cases hrest : c.rest with
  | nil =>
    refine .error nofun ?_
    rw [node_eq, hrest]
  | cons byte rest =>
    have hlenient : node b o.lenient inner₂ ⟨c, s⟩ =
        afterTag b o.lenient inner₂ c.pos byte ⟨c.advance 1, s⟩ := by
      rw [node_eq, hrest]
    have hahead : Ahead c (c.advance 1) := by
      refine ⟨1, ?_, rfl⟩
      rw [Cursor.remaining, ← c.length_rest, hrest]
      exact Nat.succ_pos _
    cases hbyte : Tag.ofByte? byte with
    | none =>
      have hstrict : afterTag b o.strict inner₁ c.pos byte ⟨c.advance 1, s⟩ =
          .error (.unknownTag byte c.pos) ⟨c.advance 1, s⟩ := by
        simp only [afterTag, hbyte]
        cases inner₁ <;> rfl
      simp only [hstrict]
      refine .unknown ⟨Nat.le_refl _, ?_, hbyte⟩ (node_lenient_unknown hrest hbyte s)
      rw [hrest, Nat.sub_self]
      rfl
    | some tag =>
      have htag := replaces_afterTag (b := b) (o := o) h hbyte c.pos (c.advance 1) s
      simp only
      generalize afterTag b o.strict inner₁ c.pos byte ⟨c.advance 1, s⟩ = result at htag
      cases htag with
      | error hother hsame => exact .error hother (hlenient.trans hsame)
      | unknown hunknown hnull =>
        refine .unknown (hunknown.of_ahead hahead) ?_
        rw [hlenient, hnull, node_withNull hrest hunknown.1]
      | ok hsame hahead' hnull =>
        refine .ok (hlenient.trans hsame) (hahead.trans hahead') fun p hp => ?_
        rw [node_withNull hrest (Nat.le_trans hahead'.pos_le hp)]
        exact hnull p hp

theorem replaces_value (refusal : Refusal) :
    ∀ levels, Replaces (value b o.strict refusal levels) (value b o.lenient refusal levels)
  | 0 => replaces_node (.refused refusal)
  | levels + 1 => replaces_node (.opened (replaces_value refusal levels))

/-- **A strict walk over a region tells of the lenient walk over it.** -/
theorem replaces_root (h : Header) : Replaces (root b o.strict h) (root b o.lenient h) := by
  refine (replaces_value (o.refusal 0) (o.levels 0)).bind fun node => ?_
  refine replaces_remaining.bind fun unused => ?_
  -- Both walks have the same to say about sizes.
  show Replaces (if (o.exactSize && unused != 0) = true then _ else _)
    (if (o.exactSize && unused != 0) = true then _ else _)
  split
  · exact replaces_throw nofun
  · exact replaces_pure node

end

end Walk

/-! ## Buffers with a null -/

section
variable {bytes : List UInt8} {p : Nat} (hp : headerSize ≤ p)
include hp

/-- The header says the same whatever stands behind it. -/
theorem declaredSize_set (byte : UInt8) : declaredSize (bytes.set p byte) = declaredSize bytes := by
  obtain ⟨p, rfl⟩ := Nat.exists_eq_add_of_le' hp
  match bytes with
  | [] => rfl
  | [_] => rfl
  | [_, _] => rfl
  | [_, _, _] => rfl
  | _ :: _ :: _ :: _ :: _ => rfl

theorem headerParse_set (byte : UInt8) : Header.parse (bytes.set p byte) = Header.parse bytes := by
  simp only [Header.parse, declaredSize_set hp, List.length_set]

/-- The region of a buffer with a null is the region with a null. -/
theorem region_set (h : Header) :
    h.region (bytes.set p Tag.null.toByte) = (h.region bytes).withNull p := by
  have hlt : ¬p < headerSize := Nat.not_lt_of_le hp
  simp only [Header.region, Cursor.window, Cursor.withNull, List.length_set, List.drop_set,
    if_neg hlt, List.take_set]

end

/-- A byte of the region is a byte of the buffer. -/
theorem getElem?_of_region {bytes : List UInt8} {h : Header} {p : Nat} {byte : UInt8}
    (hp : headerSize ≤ p) (hbyte : (h.region bytes).rest[p - headerSize]? = some byte) :
    bytes[p]? = some byte := by
  simp only [Header.region, Cursor.window, List.getElem?_take, List.getElem?_drop,
    Nat.add_sub_cancel' hp] at hbyte
  split at hbyte
  · exact hbyte
  · cases hbyte

/-! ## Strict and lenient decoding -/

section
variable {b : Builder σ ν} {o : Options} {bytes : List UInt8} {s : σ}

/-- Under the strict policy, every builder gets the outcome of the check. -/
theorem outcome_decodeWith_strict (b : Builder σ ν) (o : Options) (bytes : List UInt8) (s : σ) :
    outcome (decodeWith b o.strict bytes s).1 = check o bytes := by
  rw [outcome_decodeWith b Builder.skip o.strict bytes s ()]
  show outcome (check o bytes) = check o bytes
  cases check o bytes <;> rfl

/-- What is not refused for an unknown tag is decoded alike under both policies. -/
theorem decodeWith_lenient_of_ne (h : ∀ tag p, check o bytes ≠ .error (.unknownTag tag p)) :
    decodeWith b o.lenient bytes s = decodeWith b o.strict bytes s := by
  rw [← outcome_decodeWith_strict b o bytes s] at h
  simp only [decodeWith] at h ⊢
  cases hparse : Header.parse bytes with
  | error e => rfl
  | ok header =>
    simp only [hparse] at h ⊢
    have hroot := Walk.replaces_root (b := b) (o := o) header (header.region bytes) s
    generalize Walk.root b o.strict header ⟨header.region bytes, s⟩ = result at h hroot
    cases hroot with
    | ok hsame => rw [hsame]
    | error hother hsame => rw [hsame]
    | unknown => exact absurd rfl (h _ _)

/-- A buffer that is refused for an unknown tag has that tag at that place, and the lenient policy
does not tell it from the buffer with a null there. -/
theorem decodeWith_lenient_of_eq {tag : UInt8} {p : Nat}
    (h : check o bytes = .error (.unknownTag tag p)) :
    bytes[p]? = some tag ∧ Tag.ofByte? tag = none ∧
      decodeWith b o.lenient bytes s =
        decodeWith b o.lenient (bytes.set p Tag.null.toByte) s := by
  rw [← outcome_decodeWith_strict b o bytes s] at h
  simp only [decodeWith] at h ⊢
  cases hparse : Header.parse bytes with
  | error e =>
    simp only [hparse] at h
    cases h
    obtain he | he | he := eq_of_headerParse_eq_error hparse <;> cases he
  | ok header =>
    simp only [hparse] at h ⊢
    have hroot := Walk.replaces_root (b := b) (o := o) header (header.region bytes) s
    generalize Walk.root b o.strict header ⟨header.region bytes, s⟩ = result at h hroot
    cases hroot with
    | ok hsame => cases h
    | error hother hsame =>
      cases h
      exact absurd rfl (hother _ _)
    | unknown hunknown hnull =>
      cases h
      obtain ⟨hp, htag, hnone⟩ := hunknown
      refine ⟨getElem?_of_region hp htag, hnone, ?_⟩
      rw [hnull, headerParse_set hp, hparse]
      simp only [region_set hp]

end

/-- Decoding under the strict policy fails with the error of the check. -/
theorem decode_strict_eq_error_iff {o : Options} {bytes : List UInt8} {e : DecodeError} :
    decode o.strict bytes = .error e ↔ check o bytes = .error e := by
  rw [← outcome_decodeTree TreeKind.value o bytes]
  show _ ↔ outcome (decode o.strict bytes) = _
  cases decode o.strict bytes with
  | ok v => constructor <;> nofun
  | error e' =>
    show _ ↔ Except.error e' = _
    rw [Except.error.injEq, Except.error.injEq]

/-! ## Substituting all unknown tags -/

/-- The buffer with a null in place of the unknown tag for which it is refused, if it is. -/
def replaceUnknown (o : Options) (bytes : List UInt8) : List UInt8 :=
  match decode o.strict bytes with
  | .error (.unknownTag _ p) => bytes.set p Tag.null.toByte
  | _ => bytes

/-- The buffer with a null in place of each unknown tag for which it is refused, one after the
other. There are no more of them than bytes. -/
def replaceAllUnknown (o : Options) (bytes : List UInt8) : List UInt8 :=
  (replaceUnknown o)^[bytes.length] bytes

/-- Whether the byte names no kind. -/
def isUnknown (byte : UInt8) : Bool :=
  (Tag.ofByte? byte).isNone

section
variable {o : Options} {bytes : List UInt8}

theorem replaceUnknown_of_ne (h : ∀ tag p, decode o.strict bytes ≠ .error (.unknownTag tag p)) :
    replaceUnknown o bytes = bytes := by
  rw [replaceUnknown]
  split
  · rename_i hd
    exact absurd hd (h _ _)
  · rfl

theorem replaceUnknown_of_eq {tag : UInt8} {p : Nat}
    (h : decode o.strict bytes = .error (.unknownTag tag p)) :
    replaceUnknown o bytes = bytes.set p Tag.null.toByte := by
  rw [replaceUnknown, h]

/-- With each substitution there is one unknown byte less. -/
theorem countP_replaceUnknown_lt {tag : UInt8} {p : Nat}
    (h : decode o.strict bytes = .error (.unknownTag tag p)) :
    (replaceUnknown o bytes).countP isUnknown < bytes.countP isUnknown := by
  obtain ⟨htag, hnone, -⟩ := decodeWith_lenient_of_eq (b := Builder.skip) (s := ())
    (decode_strict_eq_error_iff.1 h)
  obtain ⟨hp, rfl⟩ := List.getElem?_eq_some_iff.1 htag
  have hunknown : isUnknown bytes[p] = true := by rw [isUnknown, hnone]; rfl
  have hpos : 0 < bytes.countP isUnknown :=
    List.countP_pos_iff.2 ⟨bytes[p], List.getElem_mem hp, hunknown⟩
  have hnull : ¬isUnknown Tag.null.toByte = true := by decide
  rw [replaceUnknown_of_eq h, List.countP_set hp, if_pos hunknown, if_neg hnull]
  omega

/-- As many substitutions as there are unknown bytes leave none to refuse. -/
theorem decode_iterate_replaceUnknown_ne {n : Nat} (h : bytes.countP isUnknown ≤ n) (tag : UInt8)
    (p : Nat) : decode o.strict ((replaceUnknown o)^[n] bytes) ≠ .error (.unknownTag tag p) := by
  induction n generalizing bytes with
  | zero =>
    intro hd
    exact Nat.not_lt_zero _ (Nat.lt_of_lt_of_le (countP_replaceUnknown_lt hd) h)
  | succ n ih =>
    rw [Function.iterate_succ_apply]
    by_cases hd : ∃ tag p, decode o.strict bytes = .error (.unknownTag tag p)
    · obtain ⟨tag', p', hd⟩ := hd
      have hlt := countP_replaceUnknown_lt hd
      exact ih (by omega)
    · have hne : ∀ tag p, decode o.strict bytes ≠ .error (.unknownTag tag p) :=
        fun tag p h => hd ⟨tag, p, h⟩
      have hfixed := replaceUnknown_of_ne hne
      rw [hfixed, Function.iterate_fixed hfixed]
      exact hne tag p

/-- The lenient policy does not tell a substitution. -/
theorem decodeWith_lenient_replaceUnknown (b : Builder σ ν) (s : σ) :
    decodeWith b o.lenient (replaceUnknown o bytes) s = decodeWith b o.lenient bytes s := by
  by_cases hd : ∃ tag p, decode o.strict bytes = .error (.unknownTag tag p)
  · obtain ⟨tag, p, hd⟩ := hd
    rw [replaceUnknown_of_eq hd]
    exact (decodeWith_lenient_of_eq (decode_strict_eq_error_iff.1 hd)).2.2.symm
  · rw [replaceUnknown_of_ne fun tag p h => hd ⟨tag, p, h⟩]

theorem decodeWith_lenient_replaceAllUnknown (b : Builder σ ν) (s : σ) :
    decodeWith b o.lenient (replaceAllUnknown o bytes) s = decodeWith b o.lenient bytes s := by
  rw [replaceAllUnknown]
  generalize bytes.length = n
  induction n generalizing bytes with
  | zero => rfl
  | succ n ih =>
    rw [Function.iterate_succ_apply, ih, decodeWith_lenient_replaceUnknown]

theorem decode_replaceAllUnknown_ne (tag : UInt8) (p : Nat) :
    decode o.strict (replaceAllUnknown o bytes) ≠ .error (.unknownTag tag p) :=
  decode_iterate_replaceUnknown_ne List.countP_le_length tag p

/-- What the check does not refuse for an unknown tag, no decoding does. -/
theorem decodeWith_strict_ne (h : ∀ tag p, decode o.strict bytes ≠ .error (.unknownTag tag p))
    (b : Builder σ ν) (s : σ) (tag : UInt8) (p : Nat) :
    (decodeWith b o.strict bytes s).1 ≠ .error (.unknownTag tag p) := by
  intro hd
  refine h tag p (decode_strict_eq_error_iff.2 ?_)
  rw [← outcome_decodeWith_strict b o bytes s, hd]
  rfl

/-- Lenient decoding is strict decoding of the buffer with all substitutions. -/
theorem decodeWith_lenient_eq (b : Builder σ ν) (s : σ) :
    decodeWith b o.lenient bytes s = decodeWith b o.strict (replaceAllUnknown o bytes) s := by
  rw [← decodeWith_lenient_replaceAllUnknown]
  exact decodeWith_lenient_of_ne fun tag p h =>
    decode_replaceAllUnknown_ne tag p (decode_strict_eq_error_iff.2 h)

end

/-- **The lenient policy is exactly the substitution of nulls for unknown tags.** For decoding, and
for every builder and the state it is left in, with all it was asked for:

* A buffer that is not refused for an unknown tag is decoded alike under both policies, to the same
  tree or the same error.
* One that is refused for a tag at some place has that byte there, and the lenient policy decodes it
  as it does the buffer with the tag of a null there.
* So the lenient policy never refuses a buffer for an unknown tag. It decodes it as the strict
  policy does the buffer in which each tag that is refused, one after the other, is the tag of a
  null. -/
theorem decode_lenient (o : Options) (bytes : List UInt8) :
    ((∀ tag p, decode o.strict bytes ≠ .error (.unknownTag tag p)) →
      decode o.lenient bytes = decode o.strict bytes ∧
      ∀ {σ ν : Type} (b : Builder σ ν) (s : σ),
        decodeWith b o.lenient bytes s = decodeWith b o.strict bytes s) ∧
    (∀ tag p, decode o.strict bytes = .error (.unknownTag tag p) →
      bytes[p]? = some tag ∧
      decode o.lenient bytes = decode o.lenient (bytes.set p 0x00) ∧
      ∀ {σ ν : Type} (b : Builder σ ν) (s : σ),
        decodeWith b o.lenient bytes s = decodeWith b o.lenient (bytes.set p 0x00) s) ∧
    (∀ tag p, decode o.lenient bytes ≠ .error (.unknownTag tag p) ∧
      decode o.strict (replaceAllUnknown o bytes) ≠ .error (.unknownTag tag p)) ∧
    decode o.lenient bytes = decode o.strict (replaceAllUnknown o bytes) ∧
    ∀ {σ ν : Type} (b : Builder σ ν) (s : σ),
      (∀ tag p, (decodeWith b o.lenient bytes s).1 ≠ .error (.unknownTag tag p)) ∧
      decodeWith b o.lenient bytes s = decodeWith b o.strict (replaceAllUnknown o bytes) s := by
  have hall : decode o.lenient bytes = decode o.strict (replaceAllUnknown o bytes) := by
    rw [decode, decodeTree, decodeWith_lenient_eq, decode, decodeTree]
  refine ⟨fun h => ?_, fun tag p h => ?_, fun tag p => ⟨?_, decode_replaceAllUnknown_ne tag p⟩,
    hall, fun b s => ⟨fun tag p => ?_, decodeWith_lenient_eq b s⟩⟩
  · have hsame : ∀ {σ ν : Type} (b : Builder σ ν) (s : σ),
        decodeWith b o.lenient bytes s = decodeWith b o.strict bytes s := fun b s =>
      decodeWith_lenient_of_ne fun tag p hc => h tag p (decode_strict_eq_error_iff.2 hc)
    refine ⟨?_, hsame⟩
    rw [decode, decodeTree, hsame, decode, decodeTree]
  · have hcheck := decode_strict_eq_error_iff.1 h
    have hsame : ∀ {σ ν : Type} (b : Builder σ ν) (s : σ),
        decodeWith b o.lenient bytes s = decodeWith b o.lenient (bytes.set p 0x00) s :=
      fun b s => (decodeWith_lenient_of_eq hcheck).2.2
    refine ⟨(decodeWith_lenient_of_eq (b := Builder.skip) (s := ()) hcheck).1, ?_, hsame⟩
    rw [decode, decodeTree, hsame, decode, decodeTree]
  · rw [hall]
    exact decode_replaceAllUnknown_ne tag p
  · rw [decodeWith_lenient_eq]
    exact decodeWith_strict_ne decode_replaceAllUnknown_ne b s tag p

/-- Two unknown tags, one of them inside of an object: the first is refused at its place, and both
are read as nulls. -/
theorem decode_lenient_two_tags :
    let bytes : List UInt8 := [11, 0, 0, 0, 0x0e, 2, 0x42, 0x0f, 1, 0, 0xff]
    let nulls : List UInt8 := [11, 0, 0, 0, 0x0e, 2, 0x00, 0x0f, 1, 0, 0x00]
    decode ({} : Options).strict bytes = .error (.unknownTag 0x42 6) ∧
    decode ({} : Options).lenient bytes = decode ({} : Options).lenient (bytes.set 6 0x00) ∧
    replaceAllUnknown {} bytes = nulls ∧
    decode ({} : Options).lenient bytes = decode ({} : Options).strict nulls := by
  intro bytes nulls
  have hrefused : decode ({} : Options).strict bytes = .error (.unknownTag 0x42 6) := rfl
  obtain ⟨-, hstep, -, hall, -⟩ := decode_lenient {} bytes
  have hnulls : replaceAllUnknown {} bytes = nulls := by decide +kernel
  exact ⟨hrefused, (hstep _ _ hrefused).2.1, hnulls, hnulls ▸ hall⟩

end WireTree
