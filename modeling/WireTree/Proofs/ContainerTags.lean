import WireTree.Proofs.Agreement
import WireTree.Proofs.Region
import WireTree.Proofs.WalkSteps

/-!
# Container tags

Which container tags a walk comes to, and how many containers are around each.

* `Walk.watched` reads a value as `Walk.value` does, and writes down the container tags it comes to,
  each with the number of containers around it (`ContainerTag`). It does so before the tag is looked
  at, so that a tag that is refused for its nesting is written down as well.
* `containerTags o bytes` are those of the walk over a buffer, in the order in which they are read.
* `Walk.Silent m₁ m₂`: the walks are the same but for the record, and nothing is written down.
* `Walk.Further depth s s'`: from `s` to `s'`, the cursor has moved on, and the tags that were
  written down stand in between. Each container has a tag of its own, so they are no deeper than
  there are bytes.

Results:
* **`Walk.forget_watched`**: being watched makes no difference to a walk.
* **`Walk.watches_watched`**, `of_mem_containerTags`: where tags stand, and how deep they can be.
* `containerTags_eq`: every builder's walk comes to the same tags.
-/

namespace WireTree

open Cursor (Ahead)

variable {σ σ₁ σ₂ τ ν ν₁ ν₂ α β : Type}

/-- A container tag that a walk comes to. -/
structure ContainerTag where
  /-- The position of the tag. -/
  offset : Nat
  /-- The number of containers around it. -/
  depth : Nat
  deriving DecidableEq, Repr

/-- The builder with a record beside its state, which it leaves as it is. -/
def Builder.beside (b : Builder σ ν) (τ : Type) : Builder (σ × τ) ν :=
  .ofAnswer fun r s => ((b.answer r s.1).1, (b.answer r s.1).2, s.2)

namespace Walk

/-! ## Watched walks -/

/-- The container tag that is ahead, if there is one. -/
def tagAhead (c : Cursor) (depth : Nat) : List ContainerTag :=
  match c.rest with
  | [] => []
  | byte :: _ => if (Tag.ofByte? byte).any Tag.isContainer then [⟨c.pos, depth⟩] else []

/-- Writes down the container tag ahead. -/
def watch (depth : Nat) : Walk (σ × List ContainerTag) Unit
  | ⟨c, s, seen⟩ => .ok () ⟨c, s, seen ++ tagAhead c depth⟩

/-- Reads a tag and its payload, and writes the tag down first if it is that of a container. -/
def watchedNode (b : Builder σ ν) (o : Options) (depth : Nat)
    (inner : Interior (σ × List ContainerTag) ν) : Walk (σ × List ContainerTag) ν := do
  watch depth
  node (b.beside _) o inner

/-- Reads a value that `depth` containers enclose, and writes down the container tags in it. -/
def watched (b : Builder σ ν) (o : Options) (refusal : Refusal) :
    Nat → Nat → Walk (σ × List ContainerTag) ν
  | 0, depth => watchedNode b o depth (.error refusal)
  | levels + 1, depth => watchedNode b o depth (.ok (watched b o refusal levels (depth + 1)))

end Walk

/-- The container tags that the walk over a buffer comes to. -/
def containerTags (o : Options) (bytes : List UInt8) : List ContainerTag :=
  match Header.parse bytes with
  | .error _ => []
  | .ok h => (stateAfter
      (Walk.watched Builder.skip o (o.refusal 0) (o.levels 0) 0
        ⟨h.region bytes, (), []⟩)).built.2

namespace Walk

/-- What a result is without the record. -/
def forget : EStateM.Result DecodeError (State (σ × τ)) α → EStateM.Result DecodeError (State σ) α
  | .ok x s => .ok x ⟨s.cursor, s.built.1⟩
  | .error e s => .error e ⟨s.cursor, s.built.1⟩

/-- Without the record, builders with records are related as they are. -/
theorem related_beside (b : Builder σ ν) :
    Builder.Related (fun s₁ s₂ => s₁ = s₂.1) Eq b (b.beside τ) := by
  constructor <;> intros <;> subst_vars <;> rintro _ s rfl <;> exact ⟨rfl, rfl⟩

theorem inStep_watched (b : Builder σ ν) (o : Options) (refusal : Refusal) (levels depth : Nat) :
    InStep (fun s₁ s₂ => s₁ = s₂.1) Eq (value b o refusal levels)
      (watched b o refusal levels depth) := by
  have hwatch : ∀ depth, InStep (fun s₁ s₂ => s₁ = s₂.1) Eq (pure ()) (watch (σ := σ) depth) :=
    fun depth c _ _ hs => .ok c rfl hs
  induction levels generalizing depth with
  | zero =>
    have hnode := inStep_node (related_beside (τ := List ContainerTag) b) o (.refused refusal)
    exact (hwatch depth).bind_eq fun _ => hnode
  | succ levels ih =>
    have hnode := inStep_node (related_beside b) o (.opened (ih (depth + 1)))
    exact (hwatch depth).bind_eq fun _ => hnode

/-- **Being watched makes no difference to a walk.** -/
theorem forget_watched (b : Builder σ ν) (o : Options) (refusal : Refusal) (levels depth : Nat)
    (c : Cursor) (s : σ) (seen : List ContainerTag) :
    forget (watched b o refusal levels depth ⟨c, s, seen⟩) = value b o refusal levels ⟨c, s⟩ := by
  have h := inStep_watched b o refusal levels depth c s (s, seen) rfl
  generalize value b o refusal levels ⟨c, s⟩ = r₁,
    watched b o refusal levels depth ⟨c, s, seen⟩ = r₂ at h
  cases h with
  | ok after hx hs => rw [hx, hs]; rfl
  | error after e hs => rw [hs]; rfl

/-- Two builders come to the same container tags. -/
theorem inStep_watched_watched (b₁ : Builder σ₁ ν₁) (b₂ : Builder σ₂ ν₂) (o : Options)
    (refusal : Refusal) (levels depth : Nat) :
    InStep (fun s₁ s₂ => s₁.2 = s₂.2) (fun _ _ => True) (watched b₁ o refusal levels depth)
      (watched b₂ o refusal levels depth) := by
  have hb : Builder.Related (fun s₁ s₂ => s₁.2 = s₂.2) (fun _ _ => True)
      (b₁.beside (List ContainerTag)) (b₂.beside (List ContainerTag)) := by
    constructor <;> intros <;> exact fun _ _ hs => ⟨trivial, hs⟩
  have hwatch : ∀ depth, InStep (fun s₁ s₂ => s₁.2 = s₂.2) Eq (watch (σ := σ₁) depth)
      (watch (σ := σ₂) depth) := by
    rintro depth c ⟨s₁, seen₁⟩ ⟨s₂, seen₂⟩ hs
    exact .ok c rfl (congrArg (· ++ tagAhead c depth) hs)
  induction levels generalizing depth with
  | zero => exact (hwatch depth).bind_eq fun _ => inStep_node hb o (.refused refusal)
  | succ levels ih =>
    exact (hwatch depth).bind_eq fun _ => inStep_node hb o (.opened (ih (depth + 1)))

/-! ## What is done behind a tag -/

/-- The result with a record beside the builder's state. -/
def remember (r : τ) :
    EStateM.Result DecodeError (State σ) α → EStateM.Result DecodeError (State (σ × τ)) α
  | .ok x s => .ok x ⟨s.cursor, s.built, r⟩
  | .error e s => .error e ⟨s.cursor, s.built, r⟩

@[simp]
theorem forget_remember (r : τ) (result : EStateM.Result DecodeError (State σ) α) :
    forget (remember r result) = result := by
  cases result <;> rfl

@[simp]
theorem stateAfter_remember (r : τ) (result : EStateM.Result DecodeError (State σ) α) :
    (stateAfter (remember r result)).built.2 = r := by
  cases result <;> rfl

/-- The second action is the first, and leaves the record as it is. -/
def Silent (m₁ : Walk σ α) (m₂ : Walk (σ × τ) α) : Prop :=
  ∀ c s r, m₂ ⟨c, s, r⟩ = remember r (m₁ ⟨c, s⟩)

/-- What does not depend on the builder leaves a record beside its state as it is. -/
theorem silent_of_inStep {m₁ : Walk σ α} {m₂ : Walk (σ × τ) α}
    (h : ∀ r, InStep (fun s₁ s₂ => s₂ = (s₁, r)) Eq m₁ m₂) : Silent m₁ m₂ := by
  intro c s r
  have hstep := h r c s (s, r) rfl
  generalize m₁ ⟨c, s⟩ = r₁, m₂ ⟨c, s, r⟩ = r₂ at hstep
  cases hstep with
  | ok after hx hs => rw [hx, hs]; rfl
  | error after e hs => rw [hs]; rfl

theorem silent_reading (m : Cursor.Read α) :
    Silent (reading m : Walk σ α) (reading m : Walk (σ × τ) α) :=
  silent_of_inStep fun _ => inStep_reading m

theorem silent_count (unit : Nat) :
    Silent (count unit : Walk σ Nat) (count unit : Walk (σ × τ) Nat) :=
  silent_of_inStep fun _ => inStep_count unit

theorem silent_answer (b : Builder σ ν) (request : Request ν) :
    Silent (building (b.answer request)) (building ((b.beside τ).answer request)) := by
  intro c s r
  rw [Builder.beside, Builder.answer_ofAnswer]
  rfl

/-! ## Where container tags stand -/

/-- The cursor has moved on, and the tags that were written down in between stand there, each with
no more containers around it than there are bytes in front of it. -/
def Further (depth : Nat) (s s' : State (σ × List ContainerTag)) : Prop :=
  Ahead s.cursor s'.cursor ∧ ∃ new, s'.built.2 = s.built.2 ++ new ∧
    ∀ t ∈ new, t.depth + s.cursor.pos ≤ depth + t.offset ∧ t.offset < s.cursor.stop

theorem Further.trans {depth : Nat} {s s' s'' : State (σ × List ContainerTag)}
    (h : Further depth s s') (h' : Further depth s' s'') : Further depth s s'' := by
  obtain ⟨hahead, new, hnew, hin⟩ := h
  obtain ⟨hahead', new', hnew', hin'⟩ := h'
  refine ⟨hahead.trans hahead', new ++ new', ?_, fun t ht => ?_⟩
  · rw [hnew', hnew, List.append_assoc]
  · rcases List.mem_append.1 ht with ht | ht
    · exact hin t ht
    · obtain ⟨n, -, hcursor⟩ := hahead
      have h := hin' t ht
      rw [hcursor] at h
      simp only [Cursor.advance] at h
      exact ⟨by omega, h.2⟩

/-- A step that writes nothing down leads further if the cursor moves on. -/
theorem further_of_eq {depth : Nat} {s s' : State (σ × List ContainerTag)}
    (hahead : Ahead s.cursor s'.cursor) (hsame : s'.built.2 = s.built.2) : Further depth s s' :=
  ⟨hahead, [], by rw [hsame, List.append_nil], nofun⟩

/-- From everywhere, the walk leads further. -/
def Watches (depth : Nat) (m : Walk (σ × List ContainerTag) α) : Prop :=
  ∀ s, Further depth s (stateAfter (m s))

theorem Watches.bind {depth : Nat} {m : Walk (σ × List ContainerTag) α}
    {f : α → Walk (σ × List ContainerTag) β} (hm : Watches depth m)
    (hf : ∀ x, Watches depth (f x)) : Watches depth (m >>= f) :=
  stateAfter_bind (R := Further depth) Further.trans hm hf

theorem watches_throw (depth : Nat) (e : DecodeError) :
    Watches depth (throw e : Walk (σ × List ContainerTag) α) :=
  fun s => further_of_eq (.refl s.cursor) rfl

theorem Silent.watches {m₁ : Walk σ α} {m₂ : Walk (σ × List ContainerTag) α} (h : Silent m₁ m₂)
    (hconfined : Confined m₂) (depth : Nat) : Watches depth m₂ := by
  rintro ⟨c, s, seen⟩
  refine further_of_eq (hconfined _) ?_
  rw [h c s seen, stateAfter_remember]

/-- What is done behind a tag writes nothing down by itself. -/
theorem coupling_watches (b : Builder σ ν) (depth : Nat) :
    Coupling Cursor.Confined (fun _ m => Watches depth m) (b.beside (List ContainerTag))
      (b.beside (List ContainerTag)) where
  cursor := Cursor.closed_confined
  pure := fun _ s => further_of_eq (.refl s.cursor) rfl
  bind := Watches.bind
  reading := fun {_} {m} hm => (silent_reading (σ := σ) m).watches (confined_reading hm) depth
  count := fun unit => (silent_count (σ := σ) unit).watches (confined_count unit) depth
  answer := fun r => (silent_answer b r).watches (fun s => .refl s.cursor) depth

theorem tagAhead_eq_nil {c : Cursor} {byte : UInt8} {rest : List UInt8} {depth : Nat}
    (hrest : c.rest = byte :: rest)
    (hflat : ∀ tag, Tag.ofByte? byte = some tag → tag.isContainer = false) :
    tagAhead c depth = [] := by
  simp only [tagAhead, hrest]
  cases htag : Tag.ofByte? byte with
  | none => rfl
  | some tag => simp only [Option.any_some, hflat tag htag]; rfl

theorem tagAhead_eq_singleton {c : Cursor} {byte : UInt8} {rest : List UInt8} {depth : Nat}
    {tag : Tag} (hrest : c.rest = byte :: rest) (htag : Tag.ofByte? byte = some tag)
    (hcontainer : tag.isContainer = true) : tagAhead c depth = [⟨c.pos, depth⟩] := by
  simp only [tagAhead, hrest, htag, Option.any_some, hcontainer]
  rfl

theorem eq_of_mem_tagAhead {c : Cursor} {depth : Nat} {t : ContainerTag}
    (h : t ∈ tagAhead c depth) : t = ⟨c.pos, depth⟩ := by
  unfold tagAhead at h
  split at h
  · cases h
  · split at h
    · exact List.mem_singleton.1 h
    · cases h

/-- What leads further behind a tag, inside of the container if it is one, does so from before. -/
theorem Further.enter {depth : Nat} {c : Cursor} {s : σ} {seen : List ContainerTag}
    {s' : State (σ × List ContainerTag)} (hrest : c.rest ≠ [])
    (h : Further (depth + 1) ⟨c.advance 1, s, seen ++ tagAhead c depth⟩ s') :
    Further depth ⟨c, s, seen⟩ s' := by
  have hlen : 0 < c.stop - c.pos := c.length_rest ▸ List.length_pos_iff.2 hrest
  obtain ⟨hahead, new, hnew, hin⟩ := h
  refine ⟨Ahead.trans ⟨1, hlen, rfl⟩ hahead, tagAhead c depth ++ new, ?_, fun t ht => ?_⟩
  · rw [hnew, List.append_assoc]
  · rcases List.mem_append.1 ht with ht | ht
    · rw [eq_of_mem_tagAhead ht]
      exact ⟨Nat.le_refl _, by show c.pos < c.stop; omega⟩
    · have h := hin t ht
      simp only [Cursor.advance] at h ⊢
      exact ⟨by omega, h.2⟩

/-- The tag ahead is written down, and then what is behind the byte is read. -/
theorem watchedNode_eq (b : Builder σ ν) (o : Options) (depth : Nat)
    (inner : Interior (σ × List ContainerTag) ν) (c : Cursor) (s : σ)
    (seen : List ContainerTag) :
    watchedNode b o depth inner ⟨c, s, seen⟩ =
      match c.rest with
      | [] => .error (.truncated c.pos) ⟨c, s, seen⟩
      | byte :: _ =>
        afterTag (b.beside _) o inner c.pos byte ⟨c.advance 1, s, seen ++ tagAhead c depth⟩ := by
  show node (b.beside _) o inner ⟨c, s, seen ++ tagAhead c depth⟩ = _
  rw [node_eq]
  cases hrest : c.rest with
  | nil => simp only [tagAhead, hrest, List.append_nil]
  | cons byte rest => rfl

section
variable {b : Builder σ ν} {o : Options} {depth : Nat}

theorem watches_afterTag {inner : Interior (σ × List ContainerTag) ν}
    (h : ∀ w, inner = .ok w → Watches depth w) (offset : Nat) (byte : UInt8) :
    Watches depth (afterTag (b.beside _) o inner offset byte) := by
  have hinner : Interior.Rel (fun _ w => Watches depth w) inner inner := by
    cases inner with
    | error refusal => exact .refused refusal
    | ok w => exact .opened (h w rfl)
  exact (coupling_watches b depth).afterTag (watches_throw depth) o hinner offset byte

theorem watches_watchedNode {inner : Interior (σ × List ContainerTag) ν}
    (h : ∀ w, inner = .ok w → Watches (depth + 1) w) :
    Watches depth (watchedNode b o depth inner) := by
  rintro ⟨c, s, seen⟩
  rw [watchedNode_eq]
  cases hrest : c.rest with
  | nil => exact further_of_eq (.refl c) rfl
  | cons byte rest =>
    have hne : c.rest ≠ [] := hrest ▸ List.cons_ne_nil byte rest
    exact (watches_afterTag h c.pos byte _).enter hne

theorem watches_watched (refusal : Refusal) (levels depth : Nat) :
    Watches depth (watched b o refusal levels depth) := by
  induction levels generalizing depth with
  | zero => exact watches_watchedNode nofun
  | succ levels ih => exact watches_watchedNode fun _ hw => Except.ok.inj hw ▸ ih (depth + 1)

end

end Walk

/-! ## Whole buffers -/

/-- A container tag stands inside of the declared region, with a byte in front of it for each
container around it. -/
theorem of_mem_containerTags {o : Options} {bytes : List UInt8} {t : ContainerTag}
    (h : t ∈ containerTags o bytes) :
    headerSize + t.depth ≤ t.offset ∧ t.offset < (declaredSize bytes).toNat := by
  unfold containerTags at h
  split at h
  · cases h
  · rename_i header hparse
    obtain ⟨hfits, rfl⟩ := headerParse_eq_ok_iff.1 hparse
    have hwatches := Walk.watches_watched (b := Builder.skip) (o := o) (o.refusal 0) (o.levels 0) 0
    obtain ⟨-, new, hnew, hin⟩ := hwatches ⟨Header.region ⟨declaredSize bytes⟩ bytes, (), []⟩
    rw [hnew, List.nil_append] at h
    have hstop := hfits.length_region
    have ht := hin t h
    rw [region_eq_facing hfits] at ht
    simp only [Cursor.facing] at ht
    omega

/-- With any builder, a walk comes to the same container tags. -/
theorem containerTags_eq {o : Options} {bytes : List UInt8} {h : Header}
    (hparse : Header.parse bytes = .ok h) (b : Builder σ ν) (s : σ) :
    (stateAfter (Walk.watched b o (o.refusal 0) (o.levels 0) 0 ⟨h.region bytes, s, []⟩)).built.2 =
      containerTags o bytes := by
  have hstep := Walk.inStep_watched_watched b Builder.skip o (o.refusal 0) (o.levels 0) 0
    (h.region bytes) (s, []) ((), []) rfl
  rw [containerTags, hparse]
  simp only
  generalize Walk.watched b o (o.refusal 0) (o.levels 0) 0 ⟨h.region bytes, s, []⟩ = r₁,
    Walk.watched Builder.skip o (o.refusal 0) (o.levels 0) 0 ⟨h.region bytes, (), []⟩ = r₂ at hstep
  cases hstep with
  | ok after hx hs => exact hs
  | error after e hs => exact hs

end WireTree
