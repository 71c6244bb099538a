import WireTree.Decode
import WireTree.Proofs.Reading
import WireTree.Proofs.WalkInduction

/-!
# Agreement of builders

A walk with one builder against the same walk with another.

* `Builder.Related S N b₁ b₂`: from states related by `S` and nodes related by `N`, each operation
  of one builder gives a node and a state related to those of the other.
* `Walk.Matching`: two results are both answers or both the same error. Either way the cursors are
  equal and the states related.
* `Walk.InStep`: two actions match from every cursor. What a walk does depends on the bytes only, so
  actions in step compose, and nothing that a builder does ever reaches the control flow.

Results:
* **`decodeWith_related`**: decoding with related builders gives related results, and the same error
  where one fails.
* **`outcome_agrees`**: checking, decoding to a value and decoding to a JSON tree succeed on the
  same buffers and fail with the same errors, as decoding with any two builders does.
-/

namespace WireTree

variable {σ₁ σ₂ ν₁ ν₂ α α₁ α₂ β₁ β₂ : Type}

/-! ## Related builders -/

/-- From related states, two operations give related nodes and related states. -/
def Builder.Alike (S : σ₁ → σ₂ → Prop) (N : ν₁ → ν₂ → Prop) (f₁ : σ₁ → ν₁ × σ₁)
    (f₂ : σ₂ → ν₂ × σ₂) : Prop :=
  ∀ s₁ s₂, S s₁ s₂ → N (f₁ s₁).1 (f₂ s₂).1 ∧ S (f₁ s₁).2 (f₂ s₂).2

/-- Two builders whose operations are alike, on related nodes where they take nodes. -/
structure Builder.Related (S : σ₁ → σ₂ → Prop) (N : ν₁ → ν₂ → Prop) (b₁ : Builder σ₁ ν₁)
    (b₂ : Builder σ₂ ν₂) : Prop where
  null : Alike S N b₁.null b₂.null
  bool : ∀ x, Alike S N (b₁.bool x) (b₂.bool x)
  integer : ∀ n, Alike S N (b₁.integer n) (b₂.integer n)
  uinteger : ∀ n, Alike S N (b₁.uinteger n) (b₂.uinteger n)
  real : ∀ x, Alike S N (b₁.real x) (b₂.real x)
  text : ∀ s, Alike S N (b₁.text s) (b₂.text s)
  bytes : ∀ bs, Alike S N (b₁.bytes bs) (b₂.bytes bs)
  array : ∀ n, Alike S N (b₁.array n) (b₂.array n)
  append : ∀ x₁ x₂ y₁ y₂, N x₁ x₂ → N y₁ y₂ → Alike S N (b₁.append x₁ y₁) (b₂.append x₂ y₂)
  object : ∀ n, Alike S N (b₁.object n) (b₂.object n)
  set : ∀ x₁ x₂ k y₁ y₂, N x₁ x₂ → N y₁ y₂ → Alike S N (b₁.set x₁ k y₁) (b₂.set x₂ k y₂)

/-- Any two builders are related if nothing is asked of their nodes and states. -/
theorem Builder.related_true (b₁ : Builder σ₁ ν₁) (b₂ : Builder σ₂ ν₂) :
    Related (fun _ _ => True) (fun _ _ => True) b₁ b₂ := by
  constructor <;> intros <;> exact fun _ _ _ => ⟨trivial, trivial⟩

namespace Walk

/-! ## Actions in step -/

/-- Both results are related answers or both are the same error, in related places. -/
inductive Matching (S : σ₁ → σ₂ → Prop) (R : α₁ → α₂ → Prop) :
    EStateM.Result DecodeError (State σ₁) α₁ → EStateM.Result DecodeError (State σ₂) α₂ → Prop
  | ok {x₁ : α₁} {x₂ : α₂} {s₁ : σ₁} {s₂ : σ₂} (c : Cursor) (hx : R x₁ x₂) (hs : S s₁ s₂) :
      Matching S R (.ok x₁ ⟨c, s₁⟩) (.ok x₂ ⟨c, s₂⟩)
  | error {s₁ : σ₁} {s₂ : σ₂} (c : Cursor) (e : DecodeError) (hs : S s₁ s₂) :
      Matching S R (.error e ⟨c, s₁⟩) (.error e ⟨c, s₂⟩)

/-- From every cursor and related states, two actions have matching results. -/
def InStep (S : σ₁ → σ₂ → Prop) (R : α₁ → α₂ → Prop) (m₁ : Walk σ₁ α₁) (m₂ : Walk σ₂ α₂) : Prop :=
  ∀ c s₁ s₂, S s₁ s₂ → Matching S R (m₁ ⟨c, s₁⟩) (m₂ ⟨c, s₂⟩)

variable {S : σ₁ → σ₂ → Prop} {N : ν₁ → ν₂ → Prop}

theorem inStep_pure {R : α₁ → α₂ → Prop} {x₁ : α₁} {x₂ : α₂} (hx : R x₁ x₂) :
    InStep S R (pure x₁) (pure x₂) :=
  fun c _ _ hs => .ok c hx hs

theorem inStep_throw {R : α₁ → α₂ → Prop} (e : DecodeError) :
    InStep S R (throw e) (throw e) :=
  fun c _ _ hs => .error c e hs

theorem inStep_position : InStep S Eq position position :=
  fun c _ _ hs => .ok c rfl hs

theorem inStep_remaining : InStep S Eq remaining remaining :=
  fun c _ _ hs => .ok c rfl hs

/-- What is read does not depend on the builder. -/
theorem inStep_reading (read : Cursor.Read α) : InStep S Eq (reading read) (reading read) := by
  intro c s₁ s₂ hs
  simp only [reading]
  cases read c with
  | ok x after => exact .ok after rfl hs
  | error e after => exact .error after (e.refusal c.pos) hs

theorem inStep_building {f₁ : σ₁ → ν₁ × σ₁} {f₂ : σ₂ → ν₂ × σ₂} (h : Builder.Alike S N f₁ f₂) :
    InStep S N (building f₁) (building f₂) := by
  intro c s₁ s₂ hs
  obtain ⟨hnode, hstate⟩ := h s₁ s₂ hs
  exact .ok c hnode hstate

theorem InStep.bind {R : α₁ → α₂ → Prop} {Q : β₁ → β₂ → Prop} {m₁ : Walk σ₁ α₁} {m₂ : Walk σ₂ α₂}
    {f₁ : α₁ → Walk σ₁ β₁} {f₂ : α₂ → Walk σ₂ β₂} (hm : InStep S R m₁ m₂)
    (hf : ∀ x₁ x₂, R x₁ x₂ → InStep S Q (f₁ x₁) (f₂ x₂)) :
    InStep S Q (m₁ >>= f₁) (m₂ >>= f₂) := by
  intro c s₁ s₂ hs
  show Matching S Q (EStateM.bind m₁ f₁ _) (EStateM.bind m₂ f₂ _)
  unfold EStateM.bind
  have h := hm c s₁ s₂ hs
  generalize m₁ ⟨c, s₁⟩ = r₁, m₂ ⟨c, s₂⟩ = r₂ at h
  -- The two runs go on after answers only, and then from one and the same cursor.
  cases h with
  | ok after hx hs' => exact hf _ _ hx after _ _ hs'
  | error after e hs' => exact .error after e hs'

/-- After equal answers, it is enough that the actions that follow are in step. -/
theorem InStep.bind_eq {Q : β₁ → β₂ → Prop} {m₁ : Walk σ₁ α} {m₂ : Walk σ₂ α}
    {f₁ : α → Walk σ₁ β₁} {f₂ : α → Walk σ₂ β₂} (hm : InStep S Eq m₁ m₂)
    (hf : ∀ x, InStep S Q (f₁ x) (f₂ x)) : InStep S Q (m₁ >>= f₁) (m₂ >>= f₂) :=
  hm.bind fun x _ hx => hx ▸ hf x

theorem inStep_reading_building (read : Cursor.Read α) {f₁ : α → σ₁ → ν₁ × σ₁}
    {f₂ : α → σ₂ → ν₂ × σ₂} (h : ∀ x, Builder.Alike S N (f₁ x) (f₂ x)) :
    InStep S N (do let x ← reading read; building (f₁ x))
      (do let x ← reading read; building (f₂ x)) :=
  (inStep_reading read).bind_eq fun x => inStep_building (h x)

/-! ## The pieces of a walk -/

theorem inStep_count (unit : Nat) : InStep S Eq (count unit) (count unit) := by
  refine inStep_position.bind_eq fun offset => ?_
  refine (inStep_reading Varint.read).bind_eq fun n => ?_
  refine inStep_remaining.bind_eq fun left => ?_
  by_cases h : n.toNat * unit ≤ left
  · simp only [if_pos h]
    exact inStep_pure rfl
  · simp only [if_neg h]
    exact inStep_throw _

theorem inStep_text : InStep S Eq text text :=
  (inStep_count 1).bind_eq fun n => inStep_reading (Cursor.text n)

/-- Steps in step may be done any number of times. -/
theorem inStep_times {step₁ : ν₁ → Walk σ₁ ν₁} {step₂ : ν₂ → Walk σ₂ ν₂}
    (h : ∀ x₁ x₂, N x₁ x₂ → InStep S N (step₁ x₁) (step₂ x₂)) (n : Nat) :
    ∀ x₁ x₂, N x₁ x₂ → InStep S N (times n step₁ x₁) (times n step₂ x₂) := by
  induction n with
  | zero =>
    intro x₁ x₂ hx
    exact inStep_pure hx
  | succ n ih =>
    intro x₁ x₂ hx
    exact (h x₁ x₂ hx).bind ih

variable {b₁ : Builder σ₁ ν₁} {b₂ : Builder σ₂ ν₂}

theorem inStep_counted {unit : Nat} {opening₁ : Nat → σ₁ → ν₁ × σ₁} {opening₂ : Nat → σ₂ → ν₂ × σ₂}
    {member₁ : ν₁ → Walk σ₁ ν₁} {member₂ : ν₂ → Walk σ₂ ν₂}
    (hopening : ∀ n, Builder.Alike S N (opening₁ n) (opening₂ n))
    (hmember : ∀ x₁ x₂, N x₁ x₂ → InStep S N (member₁ x₁) (member₂ x₂)) :
    InStep S N (counted unit opening₁ member₁) (counted unit opening₂ member₂) :=
  (inStep_count unit).bind_eq fun n => (inStep_building (hopening n)).bind (inStep_times hmember n)

theorem inStep_array (hb : Builder.Related S N b₁ b₂) {inner₁ : Walk σ₁ ν₁} {inner₂ : Walk σ₂ ν₂}
    (h : InStep S N inner₁ inner₂) : InStep S N (array b₁ inner₁) (array b₂ inner₂) := by
  refine inStep_counted hb.array fun x₁ x₂ hx => ?_
  refine h.bind fun y₁ y₂ hy => ?_
  exact inStep_building (hb.append x₁ x₂ y₁ y₂ hx hy)

theorem inStep_object (hb : Builder.Related S N b₁ b₂) {inner₁ : Walk σ₁ ν₁} {inner₂ : Walk σ₂ ν₂}
    (h : InStep S N inner₁ inner₂) : InStep S N (object b₁ inner₁) (object b₂ inner₂) := by
  refine inStep_counted hb.object fun x₁ x₂ hx => ?_
  refine inStep_text.bind_eq fun key => ?_
  refine h.bind fun y₁ y₂ hy => ?_
  exact inStep_building (hb.set x₁ x₂ key y₁ y₂ hx hy)

theorem inStep_node (hb : Builder.Related S N b₁ b₂) (o : Options)
    {inner₁ : Interior σ₁ ν₁} {inner₂ : Interior σ₂ ν₂}
    (h : Interior.Rel (InStep S N) inner₁ inner₂) :
    InStep S N (node b₁ o inner₁) (node b₂ o inner₂) := by
  refine inStep_position.bind_eq fun offset => ?_
  refine (inStep_reading Cursor.byte).bind_eq fun byte => ?_
  cases Tag.ofByte? byte with
  | none =>
    cases o.unknownTags with
    | reject => exact inStep_throw _
    | null => exact inStep_building hb.null
  | some tag =>
    cases tag with
    | null => exact inStep_building hb.null
    | bool => exact inStep_reading_building Cursor.byte fun x => hb.bool (x != 0)
    | int w => exact inStep_reading_building (Cursor.word w) fun x => hb.integer _
    | uint w =>
      cases w with
      | w64 => exact inStep_reading_building (Cursor.word .w64) fun x => hb.uinteger _
      | w8 => exact inStep_reading_building (Cursor.word .w8) fun x => hb.integer _
      | w16 => exact inStep_reading_building (Cursor.word .w16) fun x => hb.integer _
      | w32 => exact inStep_reading_building (Cursor.word .w32) fun x => hb.integer _
    | single => exact inStep_reading_building Cursor.single fun x => hb.real x.widen
    | double => exact inStep_reading_building Cursor.double hb.real
    | text => exact inStep_text.bind_eq fun s => inStep_building (hb.text s)
    | bytes =>
      refine (inStep_count 1).bind_eq fun n => ?_
      exact inStep_reading_building (Cursor.take n) hb.bytes
    | array =>
      cases h with
      | refused => exact inStep_throw _
      | opened h => exact inStep_array hb h
    | object =>
      cases h with
      | refused => exact inStep_throw _
      | opened h => exact inStep_object hb h

theorem inStep_value (hb : Builder.Related S N b₁ b₂) (o : Options) (refusal : Refusal) :
    ∀ levels, InStep S N (value b₁ o refusal levels) (value b₂ o refusal levels)
  | 0 => inStep_node hb o (.refused refusal)
  | levels + 1 => inStep_node hb o (.opened (inStep_value hb o refusal levels))

theorem inStep_root (hb : Builder.Related S N b₁ b₂) (o : Options) (h : Header) :
    InStep S N (root b₁ o h) (root b₂ o h) := by
  refine (inStep_value hb o (o.refusal 0) (o.levels 0)).bind fun x₁ x₂ hx => ?_
  refine inStep_remaining.bind_eq fun unused => ?_
  by_cases hexact : (o.exactSize && unused != 0) = true
  · simp only [if_pos hexact]
    exact inStep_throw _
  · simp only [if_neg hexact]
    exact inStep_pure hx

end Walk

/-! ## Whole buffers -/

/-- **Decoding with related builders gives related results.** Either both succeed, with related
nodes, or both fail, with the same error. The builders' states stay related in both cases. -/
theorem decodeWith_related {S : σ₁ → σ₂ → Prop} {N : ν₁ → ν₂ → Prop} {b₁ : Builder σ₁ ν₁}
    {b₂ : Builder σ₂ ν₂} (hb : Builder.Related S N b₁ b₂) (o : Options) (bytes : List UInt8)
    (s₁ : σ₁) (s₂ : σ₂) (hs : S s₁ s₂) :
    ((∃ x₁ x₂, (decodeWith b₁ o bytes s₁).1 = .ok x₁ ∧ (decodeWith b₂ o bytes s₂).1 = .ok x₂ ∧
        N x₁ x₂) ∨
      ∃ e, (decodeWith b₁ o bytes s₁).1 = .error e ∧ (decodeWith b₂ o bytes s₂).1 = .error e) ∧
    S (decodeWith b₁ o bytes s₁).2 (decodeWith b₂ o bytes s₂).2 := by
  unfold decodeWith
  cases Header.parse bytes with
  | error e => exact ⟨.inr ⟨e, rfl, rfl⟩, hs⟩
  | ok h =>
    have hroot := Walk.inStep_root hb o h (h.region bytes) s₁ s₂ hs
    simp only
    generalize Walk.root b₁ o h ⟨h.region bytes, s₁⟩ = r₁,
      Walk.root b₂ o h ⟨h.region bytes, s₂⟩ = r₂ at hroot
    cases hroot with
    | ok c hx hs' => exact ⟨.inl ⟨_, _, rfl, rfl, hx⟩, hs'⟩
    | error c e hs' => exact ⟨.inr ⟨e, rfl, rfl⟩, hs'⟩

/-- What a decoding says of a buffer: that it is in order, or the error. -/
def outcome (result : Except DecodeError α) : Except DecodeError Unit :=
  result.map fun _ => ()

theorem outcome_map {β : Type} (result : Except DecodeError α) (f : α → β) :
    outcome (result.map f) = outcome result := by
  cases result <;> rfl

/-- Any two builders, in any states, get the same outcome. -/
theorem outcome_decodeWith (b₁ : Builder σ₁ ν₁) (b₂ : Builder σ₂ ν₂) (o : Options)
    (bytes : List UInt8) (s₁ : σ₁) (s₂ : σ₂) :
    outcome (decodeWith b₁ o bytes s₁).1 = outcome (decodeWith b₂ o bytes s₂).1 := by
  have hb := Builder.related_true b₁ b₂
  obtain ⟨x₁, x₂, h₁, h₂, -⟩ | ⟨e, h₁, h₂⟩ :=
    (decodeWith_related hb o bytes s₁ s₂ trivial).1
  all_goals rw [h₁, h₂]; rfl

/-- A tree of any kind gets the outcome of the check under the same options. -/
theorem outcome_decodeTree (kind : TreeKind α) (o : Options) (bytes : List UInt8) :
    outcome (decodeTree kind o.strict bytes) = check o bytes := by
  rw [decodeTree, outcome_map, outcome_decodeWith kind.builder Builder.skip o.strict bytes () ()]
  show outcome (check o bytes) = check o bytes
  cases check o bytes <;> rfl

/-- **The check and every decoding agree, error for error.** A check succeeds exactly on the buffers
that decode to a value, and exactly on those that decode to a JSON tree, where unknown tags are
refused; and where one fails, all fail with the same error. Any two builders agree in the same way
under any options, whatever they make of the items and of unsigned numbers. -/
theorem outcome_agrees (o : Options) (bytes : List UInt8) :
    outcome (decode o.strict bytes) = check o bytes ∧
    outcome (decodeJson o.strict bytes) = check o bytes ∧
    ∀ {σ₁ ν₁ σ₂ ν₂ : Type} (b₁ : Builder σ₁ ν₁) (b₂ : Builder σ₂ ν₂) (s₁ : σ₁) (s₂ : σ₂),
      outcome (decodeWith b₁ o bytes s₁).1 = outcome (decodeWith b₂ o bytes s₂).1 := by
  refine ⟨?_, ?_, ?_⟩
  · exact outcome_decodeTree .value o bytes
  · exact outcome_decodeTree .json o bytes
  · intro σ₁ ν₁ σ₂ ν₂ b₁ b₂ s₁ s₂
    exact outcome_decodeWith b₁ b₂ o bytes s₁ s₂

end WireTree
