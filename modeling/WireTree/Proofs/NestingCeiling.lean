import WireTree.Proofs.ContainerTags

/-!
# The ceiling of nesting

The nesting limit cuts a walk off at the first container that is too deep, and does nothing else.

* `firstInside n tags` is the first of the container tags with `n` containers around it.
* `Walk.Capped refusal n m₁ m₂`: the walk `m₁` refuses the first container tag inside of `n`
  containers that the watched walk `m₂` comes to. If there is none, it does what that does, and does
  not refuse its nesting.
* `capAt limit tags result` is the result of a buffer with a limit put in place of a higher one.

Up to the first tag that is too deep, the walk with fewer levels has seen the same bytes. So it
fails there, or it has failed before for the same reason as the other walk.

Results:
* **`Walk.capped_value`**: with fewer levels, a walk is capped where they end.
* `Walk.value_fewer_levels`: so it is refused behind as many bytes, or it is the same as with more.
* `decodeWith_ne_overflow`: no buffer nests so deeply that its depths are no machine words.
* **`decode_ceiling`**: so a lower limit refuses the first container beyond it, if the walk under
  the higher one comes to such a container, and otherwise makes no difference.
-/

namespace WireTree

variable {σ ν α β : Type}

/-- The first of the tags inside of `n` containers. -/
def firstInside (n : Nat) (tags : List ContainerTag) : Option ContainerTag :=
  tags.find? fun t => t.depth = n

namespace Walk

/-! ## Capped walks -/

/-- The result is not that a container is not opened. -/
def Shallow (result : EStateM.Result DecodeError (State σ) α) : Prop :=
  ∀ (refusal : Refusal) offset after, result ≠ .error (refusal.error offset) after

/-- What the tags that a watched walk writes down and its result `high` tell of the result `low`. -/
inductive CappedAt (refusal : Refusal) (n : Nat) (tags : List ContainerTag)
    (low : EStateM.Result DecodeError (State σ) α)
    (high : EStateM.Result DecodeError (State (σ × List ContainerTag)) α) : Prop
  /-- The first tag inside of `n` containers is refused. -/
  | refused {t : ContainerTag} {after : State σ} (hfirst : firstInside n tags = some t)
      (hlow : low = .error (refusal.error t.offset) after)
  /-- There is none, and the result is the same. -/
  | same (hnone : firstInside n tags = none) (hsame : low = forget high) (hshallow : Shallow low)

/-- From everywhere, the first walk is capped at the tags that the watched one writes down. -/
def Capped (refusal : Refusal) (n : Nat) (m₁ : Walk σ α) (m₂ : Walk (σ × List ContainerTag) α) :
    Prop :=
  ∀ c s seen new, (stateAfter (m₂ ⟨c, s, seen⟩)).built.2 = seen ++ new →
    CappedAt refusal n new (m₁ ⟨c, s⟩) (m₂ ⟨c, s, seen⟩)

section
variable {refusal : Refusal} {n depth : Nat}

theorem CappedAt.append {front tags : List ContainerTag}
    {low : EStateM.Result DecodeError (State σ) α}
    {high : EStateM.Result DecodeError (State (σ × List ContainerTag)) α}
    (hfront : firstInside n front = none) (h : CappedAt refusal n tags low high) :
    CappedAt refusal n (front ++ tags) low high := by
  have happend : firstInside n (front ++ tags) = firstInside n tags := by
    rw [firstInside, List.find?_append, ← firstInside, hfront, Option.none_or, firstInside]
  cases h with
  | refused hfirst hlow => exact .refused (happend.trans hfirst) hlow
  | same hnone hsame hshallow => exact .same (happend.trans hnone) hsame hshallow

/-- A walk that writes nothing down and refuses no nesting is capped. -/
theorem Silent.capped {m₁ : Walk σ α} {m₂ : Walk (σ × List ContainerTag) α} (h : Silent m₁ m₂)
    (hshallow : ∀ s, Shallow (m₁ s)) : Capped refusal n m₁ m₂ := by
  intro c s seen new hnew
  rw [h c s seen] at hnew ⊢
  obtain rfl : new = [] := by
    rw [stateAfter_remember] at hnew
    exact List.self_eq_append_right.1 hnew
  exact .same rfl (forget_remember seen _).symm (hshallow _)

theorem Capped.bind {m₁ : Walk σ α} {m₂ : Walk (σ × List ContainerTag) α} {f₁ : α → Walk σ β}
    {f₂ : α → Walk (σ × List ContainerTag) β} (hw : Watches depth m₂) (hm : Capped refusal n m₁ m₂)
    (hwf : ∀ x, Watches depth (f₂ x)) (hf : ∀ x, Capped refusal n (f₁ x) (f₂ x)) :
    Capped refusal n (m₁ >>= f₁) (m₂ >>= f₂) := by
  intro c s seen new hnew
  obtain ⟨-, front, hfront, -⟩ := hw ⟨c, s, seen⟩
  have h := hm c s seen front hfront
  cases hresult : m₂ ⟨c, s, seen⟩ with
  | error e after =>
    rw [hresult] at h hfront
    rw [bind_of_eq_error hresult] at hnew ⊢
    obtain rfl : front = new := List.append_cancel_left (hfront.symm.trans hnew)
    cases h with
    | refused hfirst hlow => exact .refused hfirst (bind_of_eq_error hlow f₁)
    | same hnone hsame hshallow =>
      refine .same hnone (bind_of_eq_error hsame f₁) fun refusal offset after' h => ?_
      rw [bind_of_eq_error hsame] at h
      cases h
      exact hshallow _ _ _ hsame
  | ok x after =>
    obtain ⟨c', s', seen'⟩ := after
    rw [hresult] at h hfront
    rw [bind_of_eq_ok hresult] at hnew ⊢
    obtain ⟨-, back, hback, -⟩ := hwf x ⟨c', s', seen'⟩
    obtain rfl : front ++ back = new := by
      have hseen : seen' = seen ++ front := hfront
      refine (List.append_right_inj seen).1 ?_
      rw [← List.append_assoc, ← hseen, ← hnew, hback]
    -- Either the front has a tag to refuse already, or the second walk is what it comes to.
    cases h with
    | refused hfirst hlow =>
      refine .refused ?_ (bind_of_eq_error hlow f₁)
      rw [firstInside, List.find?_append, ← firstInside, hfirst, Option.some_or]
    | same hnone hsame hshallow =>
      rw [bind_of_eq_ok hsame]
      exact (hf x c' s' seen' back hback).append hnone

theorem shallow_reading (m : Cursor.Read α) (s : State σ) : Shallow (reading m s) := by
  intro refusal offset after h
  simp only [reading] at h
  split at h
  · cases h
  · rename_i e c he
    cases e <;> cases refusal <;> cases h

theorem shallow_count (unit : Nat) (s : State σ) : Shallow (count unit s) := by
  intro refusal offset after h
  rw [count_eq] at h
  split at h
  · split at h <;> cases refusal <;> cases h
  · rename_i e c he
    cases e <;> cases refusal <;> cases h

theorem shallow_unknownTag (byte : UInt8) (offset : Nat) (s : State σ) :
    Shallow ((throw (.unknownTag byte offset) : Walk σ α) s) := by
  rintro (_ | _) _ _ ⟨⟩

/-- What is done behind a tag is capped if the values in it are. -/
theorem coupling_capped (b : Builder σ ν) (refusal : Refusal) (n depth : Nat) :
    Coupling Cursor.Confined (fun m₁ m₂ => Watches depth m₂ ∧ Capped refusal n m₁ m₂) b
      (b.beside (List ContainerTag)) where
  cursor := Cursor.closed_confined
  pure := fun x => ⟨(coupling_watches b depth).pure x, Silent.capped (fun _ _ _ => rfl) nofun⟩
  bind := fun hm hf => ⟨hm.1.bind fun x => (hf x).1, hm.2.bind hm.1 (fun x => (hf x).1)
    fun x => (hf x).2⟩
  reading := fun {_} {m} hm => ⟨(coupling_watches b depth).reading hm,
    (silent_reading m).capped (shallow_reading m)⟩
  count := fun unit => ⟨(coupling_watches b depth).count unit,
    (silent_count unit).capped (shallow_count unit)⟩
  answer := fun r => ⟨(coupling_watches b depth).answer r, (silent_answer b r).capped nofun⟩

/-! ## Values -/

variable {b : Builder σ ν} {o₁ o₂ : Options}

/-- The tag of a kind without other values in it is read alike, whatever levels are left. -/
theorem capped_afterTag (hpolicy : o₁.unknownTags = o₂.unknownTags) {byte : UInt8}
    (hflat : ∀ tag, Tag.ofByte? byte = some tag → tag.isContainer = false)
    (inner₁ : Interior σ ν) (inner₂ : Interior (σ × List ContainerTag) ν) (offset : Nat) :
    Capped refusal n (afterTag b o₁ inner₁ offset byte)
      (afterTag (b.beside _) o₂ inner₂ offset byte) := by
  have hb := coupling_capped b refusal n 0
  unfold afterTag
  cases htag : Tag.ofByte? byte with
  | none =>
    simp only [hpolicy]
    cases o₂.unknownTags with
    | reject => exact Silent.capped (fun _ _ _ => rfl) (shallow_unknownTag byte offset)
    | null => exact (hb.answer .null).2
  | some tag =>
    have hno := hflat tag htag
    cases inner₁ <;> cases inner₂ <;> simp only [hno] <;> exact (hb.told tag).2

/-- What may be done inside of a container that `depth` others enclose: nothing, if these are as
many as allowed, and else a capped walk. -/
inductive InnerCapped (refusal : Refusal) (n depth : Nat) :
    Interior σ ν → Interior (σ × List ContainerTag) ν → Prop
  | refused (hdepth : depth = n) (inner₂ : Interior (σ × List ContainerTag) ν) :
      InnerCapped refusal n depth (.error refusal) inner₂
  | opened {w₁ : Walk σ ν} {w₂ : Walk (σ × List ContainerTag) ν} (hdepth : depth ≠ n)
      (hcapped : Capped refusal n w₁ w₂) : InnerCapped refusal n depth (.ok w₁) (.ok w₂)

theorem capped_watchedNode (hpolicy : o₁.unknownTags = o₂.unknownTags) {inner₁ : Interior σ ν}
    {inner₂ : Interior (σ × List ContainerTag) ν}
    (hwatches : ∀ w, inner₂ = .ok w → Watches (depth + 1) w)
    (h : InnerCapped refusal n depth inner₁ inner₂) :
    Capped refusal n (node b o₁ inner₁) (watchedNode b o₂ depth inner₂) := by
  intro c s seen new hnew
  rw [watchedNode_eq] at hnew ⊢
  rw [node_eq]
  cases hrest : c.rest with
  | nil =>
    simp only [hrest] at hnew ⊢
    obtain rfl : new = [] := List.self_eq_append_right.1 hnew
    refine .same rfl rfl ?_
    rintro (_ | _) _ _ ⟨⟩
  | cons byte rest =>
    simp only [hrest] at hnew ⊢
    by_cases hflat : ∀ tag, Tag.ofByte? byte = some tag → tag.isContainer = false
    · rw [tagAhead_eq_nil hrest hflat, List.append_nil] at hnew ⊢
      exact capped_afterTag hpolicy hflat inner₁ inner₂ c.pos _ s seen new hnew
    · -- The tag of the container comes first among those that are written down.
      simp only [not_forall, Bool.not_eq_false] at hflat
      obtain ⟨tag, htag, hcontainer⟩ := hflat
      have hafter := watches_afterTag (b := b) (o := o₂) hwatches c.pos byte
      obtain ⟨-, back, hback, -⟩ := hafter ⟨c.advance 1, s, seen ++ tagAhead c depth⟩
      rw [tagAhead_eq_singleton hrest htag hcontainer] at hnew hback ⊢
      obtain rfl : ⟨c.pos, depth⟩ :: back = new := by
        refine (List.append_right_inj seen).1 ?_
        rw [← hnew, hback, List.append_assoc, List.singleton_append]
      cases h with
      | refused hdepth =>
        have hfirst : firstInside n (⟨c.pos, depth⟩ :: back) = some ⟨c.pos, depth⟩ :=
          List.find?_cons_of_pos (decide_eq_true hdepth)
        have hlow : afterTag b o₁ (.error refusal) c.pos byte ⟨c.advance 1, s⟩ =
            .error (refusal.error c.pos) ⟨c.advance 1, s⟩ := by
          simp only [afterTag, htag, hcontainer]
          rfl
        exact .refused hfirst hlow
      | @opened w₁ w₂ hdepth hcapped =>
        have hskip : firstInside n [⟨c.pos, depth⟩] = none :=
          List.find?_cons_of_neg (by simpa using hdepth)
        have hinner := (coupling_capped b refusal n (depth + 1)).container w₁ w₂
          ⟨hwatches w₂ rfl, hcapped⟩ tag
        simp only [afterTag, htag, hcontainer] at hback ⊢
        exact (hinner.2 _ _ _ _ hback).append hskip

/-- **With fewer levels, a walk is capped where they end.** What becomes of containers beyond the
other levels does not matter. -/
theorem capped_value (hpolicy : o₁.unknownTags = o₂.unknownTags) (refusal refusal' : Refusal)
    {low high : Nat} (hle : low ≤ high) (hn : depth + low = n) :
    Capped refusal n (value b o₁ refusal low) (watched b o₂ refusal' high depth) := by
  induction low generalizing high depth with
  | zero =>
    cases high with
    | zero => exact capped_watchedNode hpolicy nofun (.refused hn _)
    | succ high =>
      refine capped_watchedNode hpolicy (fun w hw => ?_) (.refused hn _)
      exact Except.ok.inj hw ▸ watches_watched refusal' high (depth + 1)
  | succ low ih =>
    cases high with
    | zero => cases hle
    | succ high =>
      refine capped_watchedNode hpolicy (fun w hw => ?_) (.opened (by omega) ?_)
      · exact Except.ok.inj hw ▸ watches_watched refusal' high (depth + 1)
      · exact ih (Nat.le_of_succ_le_succ hle) (by omega)

end

section
variable {o₁ o₂ : Options} {low high : Nat}

/-- With fewer levels, a walk is refused at a container with as many tags in front of it, or it is
the same as with more. -/
theorem value_fewer_levels (b : Builder σ ν) (hpolicy : o₁.unknownTags = o₂.unknownTags)
    (refusal refusal' : Refusal) (hle : low ≤ high) (s : State σ) :
    (∃ offset after, s.cursor.pos + low ≤ offset ∧ offset < s.cursor.stop ∧
      value b o₁ refusal low s = .error (refusal.error offset) after) ∨
    (value b o₁ refusal low s = value b o₂ refusal' high s ∧
      Shallow (value b o₁ refusal low s)) := by
  obtain ⟨c, s⟩ := s
  have hwatches := watches_watched (b := b) (o := o₂) refusal' high 0
  obtain ⟨-, new, hnew, hplaces⟩ := hwatches ⟨c, s, []⟩
  have hcapped := capped_value (b := b) hpolicy refusal refusal' hle (Nat.zero_add low) c s [] new
    hnew
  cases hcapped with
  | @refused t after hfirst hlow =>
    have hdepth := List.find?_some hfirst
    have hplace := hplaces t (List.mem_of_find?_eq_some hfirst)
    simp only [decide_eq_true_eq] at hdepth
    exact .inl ⟨t.offset, after, by simp only at hplace ⊢; omega, hplace.2, hlow⟩
  | same hnone hsame hshallow =>
    rw [forget_watched] at hsame
    exact .inr ⟨hsame, hshallow⟩

end

end Walk

/-! ## Whole buffers -/

/-- The result, unless there is a tag inside of `limit` containers. The first is refused then. -/
def capAt (limit : UInt64) (tags : List ContainerTag) (result : Except DecodeError α) :
    Except DecodeError α :=
  match firstInside limit.toNat tags with
  | some t => .error (.tooDeep limit t.offset)
  | none => result

/-- A limit that the containers in front of a tag come up to is far from the largest one. -/
theorem refusal_of_firstInside {o o' : Options} {bytes : List UInt8} {t : ContainerTag}
    (h : firstInside o.maxDepth.toNat (containerTags o' bytes) = some t) :
    o.refusal 0 = .tooDeep o.maxDepth := by
  have htag := of_mem_containerTags (List.mem_of_find?_eq_some h)
  have hdepth := List.find?_some h
  have hlt := (declaredSize bytes).toNat_lt
  simp only [decide_eq_true_eq] at hdepth
  exact Options.refusal_zero (Options.toNat_lt_largest_iff.1 (by omega))

/-- Either there is a tag inside of as many containers as allowed, and the first is refused, or a
higher limit makes no difference and nothing is refused for its nesting. -/
theorem decodeWith_ceiling (b : Builder σ ν) (o₁ o₂ : Options)
    (hpolicy : o₁.unknownTags = o₂.unknownTags) (hexact : o₁.exactSize = o₂.exactSize)
    (hle : o₁.maxDepth ≤ o₂.maxDepth) (bytes : List UInt8) (s : σ) :
    (∃ t, firstInside o₁.maxDepth.toNat (containerTags o₂ bytes) = some t ∧
        (decodeWith b o₁ bytes s).1 = .error (.tooDeep o₁.maxDepth t.offset)) ∨
      (firstInside o₁.maxDepth.toNat (containerTags o₂ bytes) = none ∧
        decodeWith b o₁ bytes s = decodeWith b o₂ bytes s ∧
        ∀ (refusal : Refusal) offset,
          (decodeWith b o₁ bytes s).1 ≠ .error (refusal.error offset)) := by
  cases hparse : Header.parse bytes with
  | error e =>
    have hfail : ∀ o, decodeWith b o bytes s = (.error e, s) := fun o => by
      rw [decodeWith, hparse]
    refine .inr ⟨by rw [containerTags, hparse]; rfl, by rw [hfail, hfail], ?_⟩
    intro refusal offset h
    rw [hfail] at h
    obtain he | he | he := eq_of_headerParse_eq_error hparse <;> subst he <;>
      cases refusal <;> cases h
  | ok header =>
    have hwalks : Walk.Capped (o₁.refusal 0) o₁.maxDepth.toNat
        (Walk.value b o₁ (o₁.refusal 0) (o₁.levels 0))
        (Walk.watched b o₂ (o₂.refusal 0) (o₂.levels 0) 0) :=
      Walk.capped_value hpolicy (o₁.refusal 0) (o₂.refusal 0) hle (Nat.zero_add _)
    have hcapped := hwalks (header.region bytes) s [] _ (containerTags_eq hparse b s)
    rw [decodeWith_of_parse hparse, decodeWith_of_parse hparse]
    cases hcapped with
    | refused hfirst hlow =>
      refine .inl ⟨_, hfirst, ?_⟩
      rw [refusal_of_firstInside hfirst] at hlow
      simp only [Walk.valueAt, refusal_of_firstInside hfirst, hlow, Refusal.error]
    | same hnone hsame hshallow =>
      rw [Walk.forget_watched] at hsame
      refine .inr ⟨hnone, ?_, fun refusal offset h => ?_⟩
      · simp only [Walk.valueAt, hsame, hexact]
      · simp only [Walk.valueAt] at h
        cases hvalue : Walk.value b o₁ (o₁.refusal 0) (o₁.levels 0) ⟨header.region bytes, s⟩ with
        | error e after =>
          simp only [hvalue] at h
          cases h
          exact hshallow _ _ _ hvalue
        | ok node after =>
          simp only [hvalue] at h
          split at h <;> cases refusal <;> cases h

theorem capAt_map {β : Type} (limit : UInt64) (tags : List ContainerTag)
    (result : Except DecodeError α) (f : α → β) :
    (capAt limit tags result).map f = capAt limit tags (result.map f) := by
  unfold capAt
  cases firstInside limit.toNat tags <;> rfl

theorem eq_ok_of_capAt {limit : UInt64} {tags : List ContainerTag} {result : Except DecodeError α}
    {x : α} (h : capAt limit tags result = .ok x) : result = .ok x := by
  unfold capAt at h
  cases hfirst : firstInside limit.toNat tags with
  | some t =>
    rw [hfirst] at h
    cases h
  | none =>
    rw [hfirst] at h
    exact h

/-- The result under the lower limit is that under the higher one, capped. -/
theorem fst_decodeWith_ceiling (b : Builder σ ν) (o₁ o₂ : Options)
    (hpolicy : o₁.unknownTags = o₂.unknownTags) (hexact : o₁.exactSize = o₂.exactSize)
    (hle : o₁.maxDepth ≤ o₂.maxDepth) (bytes : List UInt8) (s : σ) :
    (decodeWith b o₁ bytes s).1 =
      capAt o₁.maxDepth (containerTags o₂ bytes) (decodeWith b o₂ bytes s).1 := by
  unfold capAt
  obtain ⟨t, hfirst, htooDeep⟩ | ⟨hnone, hsame, -⟩ :=
    decodeWith_ceiling b o₁ o₂ hpolicy hexact hle bytes s
  · rw [hfirst]
    exact htooDeep
  · rw [hnone, hsame]

/-- Nothing nests deeper than a limit that is at least the declared size. -/
theorem decodeWith_ne_tooDeep {o : Options} {bytes : List UInt8}
    (h : (declaredSize bytes).toNat ≤ o.maxDepth.toNat) (b : Builder σ ν) (s : σ) (limit : UInt64)
    (offset : Nat) : (decodeWith b o bytes s).1 ≠ .error (.tooDeep limit offset) := by
  obtain ⟨t, hfirst, -⟩ | ⟨-, -, hshallow⟩ :=
    decodeWith_ceiling b o o rfl rfl (UInt64.le_refl _) bytes s
  · have htag := of_mem_containerTags (List.mem_of_find?_eq_some hfirst)
    have hdepth := List.find?_some hfirst
    simp only [decide_eq_true_eq] at hdepth
    omega
  · exact hshallow (.tooDeep limit) offset

/-- No depth in a buffer is so large that the next one is no machine word. -/
theorem decodeWith_ne_overflow (b : Builder σ ν) (o : Options) (bytes : List UInt8) (s : σ) :
    (decodeWith b o bytes s).1 ≠ .error .overflow := by
  obtain ⟨t, -, htooDeep⟩ | ⟨-, -, hshallow⟩ :=
    decodeWith_ceiling b o o rfl rfl (UInt64.le_refl _) bytes s
  · rw [htooDeep]
    rintro ⟨⟩
  · exact hshallow .overflow 0

/-- **The nesting limit refuses the first container beyond it, and does nothing else.** Where a
limit `m` is put in place of a higher one, and the walk under that comes to the tag of a container
inside of `m` others, decoding and the check refuse the first of these tags, whatever becomes of it
under the higher limit, and else their results are the same. So it is for every builder, which is
also left in the same state then, with all it was asked for.

So a higher limit accepts what a lower one does, as the same tree, and one that is at least the
declared size refuses nothing for its nesting. -/
theorem decode_ceiling (o : Options) (bytes : List UInt8) {m m' : UInt64} (h : m ≤ m') :
    let low : Options := { o with maxDepth := m }
    let high : Options := { o with maxDepth := m' }
    decode low bytes = capAt m (containerTags high bytes) (decode high bytes) ∧
    check low bytes = capAt m (containerTags high.strict bytes) (check high bytes) ∧
    (∀ {σ ν : Type} (b : Builder σ ν) (s : σ),
      (decodeWith b low bytes s).1 =
        capAt m (containerTags high bytes) (decodeWith b high bytes s).1 ∧
      (firstInside m.toNat (containerTags high bytes) = none →
        decodeWith b low bytes s = decodeWith b high bytes s)) ∧
    (∀ v, decode low bytes = .ok v → decode high bytes = .ok v) ∧
    (check low bytes = .ok () → check high bytes = .ok ()) ∧
    ((declaredSize bytes).toNat ≤ m'.toNat → ∀ limit offset,
      decode high bytes ≠ .error (.tooDeep limit offset) ∧
      check high bytes ≠ .error (.tooDeep limit offset)) := by
  intro low high
  have hdecode : decode low bytes = capAt m (containerTags high bytes) (decode high bytes) := by
    rw [decode, decodeTree, fst_decodeWith_ceiling TreeKind.value.builder low high rfl rfl h,
      capAt_map, decode, decodeTree]
  have hcheck : check low bytes = capAt m (containerTags high.strict bytes) (check high bytes) :=
    fst_decodeWith_ceiling Builder.skip low.strict high.strict rfl rfl h bytes ()
  refine ⟨hdecode, hcheck, fun b s => ⟨?_, fun hnone => ?_⟩, fun v hv => ?_, fun hv => ?_,
    fun hsize limit offset => ⟨fun hd => ?_, ?_⟩⟩
  · exact fst_decodeWith_ceiling b low high rfl rfl h bytes s
  · obtain ⟨t, hfirst, -⟩ | ⟨-, hsame, -⟩ :=
      decodeWith_ceiling b low high rfl rfl h bytes s
    · rw [hnone] at hfirst
      cases hfirst
    · exact hsame
  · exact eq_ok_of_capAt (hdecode.symm.trans hv)
  · exact eq_ok_of_capAt (hcheck.symm.trans hv)
  · have hne := decodeWith_ne_tooDeep (o := high) hsize TreeKind.value.builder () limit offset
    rw [decode, decodeTree] at hd
    cases hresult : (decodeWith TreeKind.value.builder high bytes ()).1 with
    | ok x =>
      rw [hresult] at hd
      cases hd
    | error e =>
      rw [hresult] at hd
      cases hd
      exact hne hresult
  · exact decodeWith_ne_tooDeep (o := high.strict) hsize Builder.skip () limit offset

/-- An object that gives one key two values, the first of them an array in an array. -/
def droppedArrays : List UInt8 :=
  [15, 0, 0, 0, 0x0f, 2, 1, 0x61, 0x0e, 1, 0x0e, 0, 1, 0x61, 0x00]

/-- The arrays nest too deeply for a lower limit, although they are dropped. -/
theorem decode_ceiling_droppedArrays :
    (2 : UInt64) ≤ 256 ∧
    containerTags {} droppedArrays = [⟨4, 0⟩, ⟨8, 1⟩, ⟨10, 2⟩] ∧
    decode {} droppedArrays = .ok (.object [("a", .null)]) ∧
    decode { maxDepth := 2 } droppedArrays = .error (.tooDeep 2 10) := by
  have hle : (2 : UInt64) ≤ 256 := by decide
  have htags : containerTags {} droppedArrays = [⟨4, 0⟩, ⟨8, 1⟩, ⟨10, 2⟩] := by decide +kernel
  have hdropped : decode {} droppedArrays = .ok (.object [("a", .null)]) := rfl
  obtain ⟨hdecode, -⟩ := decode_ceiling {} droppedArrays hle
  refine ⟨hle, htags, hdropped, hdecode.trans ?_⟩
  show capAt 2 (containerTags {} droppedArrays) _ = _
  rw [htags]
  rfl

end WireTree
