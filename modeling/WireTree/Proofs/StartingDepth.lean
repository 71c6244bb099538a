import WireTree.Proofs.NestingCeiling

/-!
# Values that start at a depth

Reading a value inside of some containers, against reading it at the root under a lower limit.

* `Options.lowered o depth` are the options with the limit lowered by the depth, as far as to zero.
* `Walk.naming refusal m` does what `m` does. Where that finds a container nested too deeply,
  `refusal` becomes of it instead.
* `Walk.ShiftsLimit b o depth s`: from the state `s`, reading a value at the depth is reading one at
  the root under the lowered limit, but for the limit that is named.
* `ContainerAhead c`: the next byte is the tag of a container.

A depth is a machine word. Opening a container adds one to it, and only then it is compared with the
limit. So the depth is as good as a lower limit, as long as this sum is a word. Behind the largest
word there is none, and the program stops: at the largest depth in front of every container, and
under the largest limit in front of those that would nest more deeply than it says.

Results:
* `value_naming`: a refusal shows where there is no level left, and nowhere else.
* **`valueAt_shifts_limit`**: for which depths and limits a depth is as good as a lower limit, and
  what becomes of the others.
-/

namespace WireTree

variable {σ ν α β : Type}

/-! ## Levels -/

namespace Options

/-- The options with the limit lowered by a depth, as far as to zero. -/
def lowered (o : Options) (depth : UInt64) : Options :=
  { o with maxDepth := UInt64.ofNat (o.maxDepth.toNat - depth.toNat) }

theorem unknownTags_lowered (o : Options) (depth : UInt64) :
    (o.lowered depth).unknownTags = o.unknownTags :=
  rfl

theorem toNat_maxDepth_lowered (o : Options) (depth : UInt64) :
    (o.lowered depth).maxDepth.toNat = o.maxDepth.toNat - depth.toNat :=
  UInt64.toNat_ofNat_of_lt' (Nat.lt_of_le_of_lt (Nat.sub_le ..) o.maxDepth.toNat_lt)

/-- The lowered limit leaves as many levels at the root as the limit does at the depth. -/
theorem levels_lowered (o : Options) (depth : UInt64) :
    (o.lowered depth).levels 0 = o.levels depth := by
  rw [levels_zero, toNat_maxDepth_lowered, levels]

theorem refusal_of_eq {o : Options} {depth : UInt64}
    (h : depth = 0xffff_ffff_ffff_ffff ∨ o.maxDepth = 0xffff_ffff_ffff_ffff) :
    o.refusal depth = .overflow :=
  if_pos h.symm

end Options

/-! ## What becomes of a container -/

/-- The error with another refusal for a container that is nested too deeply. -/
def DecodeError.naming (refusal : Refusal) : DecodeError → DecodeError
  | tooDeep _ offset => refusal.error offset
  | e => e

/-- The same for a refusal. -/
def Refusal.naming (refusal : Refusal) : Refusal → Refusal
  | tooDeep _ => refusal
  | overflow => overflow

theorem Refusal.naming_error (refusal refusal' : Refusal) (offset : Nat) :
    (refusal'.error offset).naming refusal = (refusal.naming refusal').error offset := by
  cases refusal' <;> rfl

/-- What becomes of containers at a depth is at most renamed by the lowered limit. -/
theorem Options.naming_refusal_lowered (o : Options) (depth : UInt64) :
    (o.refusal depth).naming ((o.lowered depth).refusal 0) = o.refusal depth := by
  by_cases hlowered : (o.lowered depth).maxDepth = 0xffff_ffff_ffff_ffff
  · -- Only the largest limit can be lowered to the largest one.
    have hlimit : o.maxDepth = 0xffff_ffff_ffff_ffff := by
      by_contra hne
      have hlt := toNat_lt_largest_iff.2 hne
      have hlarge := congrArg UInt64.toNat hlowered
      rw [toNat_maxDepth_lowered] at hlarge
      simp only [UInt64.reduceToNat] at hlarge
      omega
    rw [refusal_of_eq (.inr hlimit), refusal_of_eq (.inr hlowered)]
    rfl
  · rw [refusal_zero hlowered]
    rfl

namespace Walk

/-- Does the same, with another refusal for containers that are nested too deeply. -/
def naming (refusal : Refusal) (m : Walk σ α) : Walk σ α :=
  EStateM.adaptExcept (DecodeError.naming refusal) m

/-- The same for what is inside of a container. -/
def Interior.naming (refusal : Refusal) : Interior σ ν → Interior σ ν
  | .error refusal' => .error (refusal.naming refusal')
  | .ok inner => .ok (Walk.naming refusal inner)

section
variable {refusal : Refusal} {m : Walk σ α} {s : State σ}

theorem naming_of_ok {x : α} {after : State σ} (h : m s = .ok x after) :
    naming refusal m s = .ok x after := by
  rw [naming, EStateM.adaptExcept, h]

theorem naming_of_error {e : DecodeError} {after : State σ} (h : m s = .error e after) :
    naming refusal m s = .error (e.naming refusal) after := by
  rw [naming, EStateM.adaptExcept, h]

/-- Where nothing is nested too deeply, nothing is renamed. -/
theorem naming_of_ne_tooDeep
    (h : ∀ limit offset after, m s ≠ .error (.tooDeep limit offset) after) :
    naming refusal m s = m s := by
  cases hm : m s with
  | ok x after => exact naming_of_ok hm
  | error e after =>
    rw [naming_of_error hm]
    cases e with
    | tooDeep limit offset => exact absurd hm (h limit offset after)
    | _ => rfl

theorem naming_of_shallow (h : Shallow (m s)) : naming refusal m s = m s :=
  naming_of_ne_tooDeep fun limit => h (.tooDeep limit)

theorem naming_bind (refusal : Refusal) (m : Walk σ α) (f : α → Walk σ β) :
    naming refusal (m >>= f) = naming refusal m >>= fun x => naming refusal (f x) := by
  funext s
  cases h : m s with
  | ok x after =>
    rw [bind_of_eq_ok (naming_of_ok h)]
    show EStateM.adaptExcept _ _ s = EStateM.adaptExcept _ _ after
    simp only [EStateM.adaptExcept, bind_of_eq_ok h]
  | error e after =>
    rw [bind_of_eq_error (naming_of_error h), naming_of_error (bind_of_eq_error h f)]

theorem naming_throw (refusal : Refusal) (e : DecodeError) :
    naming refusal (throw e : Walk σ α) = throw (e.naming refusal) :=
  rfl

end

/-- The pieces of a walk nest nothing. -/
theorem coupling_naming (b : Builder σ ν) (refusal : Refusal) :
    Coupling (fun _ => True) (fun m₁ m₂ => m₁ = naming refusal m₂) b b where
  cursor := ⟨fun _ => trivial, fun _ _ => trivial, fun _ => trivial, fun _ => trivial⟩
  pure := fun _ => rfl
  bind := fun hm hf => by
    rw [naming_bind, ← hm]
    exact bind_congr hf
  reading := fun {_} {m} _ => funext fun s => (naming_of_shallow (shallow_reading m s)).symm
  count := fun unit => funext fun s => (naming_of_shallow (shallow_count unit s)).symm
  answer := fun _ => rfl

section
variable {o o' : Options} (b : Builder σ ν) (hpolicy : o.unknownTags = o'.unknownTags)
  (refusal : Refusal)
include hpolicy

/-- What is done behind a tag shows the refusal only in what becomes of what is inside of it. -/
theorem afterTag_naming (inner : Interior σ ν) (offset : Nat) (byte : UInt8) :
    afterTag b o (inner.naming refusal) offset byte =
      naming refusal (afterTag b o' inner offset byte) := by
  have hb := coupling_naming b refusal
  unfold afterTag
  cases Tag.ofByte? byte with
  | none =>
    rw [hpolicy]
    cases o'.unknownTags <;> cases inner <;> rfl
  | some tag =>
    cases inner with
    | error refusal' =>
      simp only [Interior.naming]
      split
      · rw [naming_throw, Refusal.naming_error]
      · exact hb.told tag
    | ok inner =>
      simp only [Interior.naming]
      split
      · exact hb.container _ _ rfl tag
      · exact hb.told tag

theorem node_naming (inner : Interior σ ν) :
    node b o (inner.naming refusal) = naming refusal (node b o' inner) := by
  have hb := coupling_naming b refusal
  rw [node_eq_bind, node_eq_bind]
  refine hb.bind rfl fun offset => hb.bind (hb.reading trivial) fun byte => ?_
  exact afterTag_naming b hpolicy refusal inner offset byte

/-- **A refusal shows where there is no level left**, and the limit shows nowhere else. -/
theorem value_naming (refusal' : Refusal) (levels : Nat) :
    value b o (refusal.naming refusal') levels = naming refusal (value b o' refusal' levels) := by
  induction levels with
  | zero => exact node_naming b hpolicy refusal (.error refusal')
  | succ levels ih =>
    rw [value, ih]
    exact node_naming b hpolicy refusal (.ok (value b o' refusal' levels))

end

/-! ## The container at the front -/

/-- The next byte is the tag of a container. -/
def ContainerAhead (c : Cursor) : Prop :=
  ∃ tag rest, c.rest = Tag.toByte tag :: rest ∧ tag.isContainer = true

/-- A container that is not opened is refused at its tag. -/
theorem node_refused_of_containerAhead {s : State σ} (h : ContainerAhead s.cursor)
    (b : Builder σ ν) (o : Options) (refusal : Refusal) :
    node b o (.error refusal) s =
      .error (refusal.error s.cursor.pos) ⟨s.cursor.advance 1, s.built⟩ := by
  obtain ⟨c, s⟩ := s
  obtain ⟨tag, rest, hrest, hcontainer⟩ := h
  rw [node_eq, hrest]
  simp only [afterTag, Tag.ofByte?_toByte, hcontainer, if_true]
  rfl

/-! ## Values at a depth -/

section
variable (b : Builder σ ν) (o : Options) (depth : UInt64) (s : State σ)

/-- Reading a value at a depth does what reading one at the root does under the lowered limit, but
for the limit that is named. The node, the builder's state, the cursor and the error are the
same. -/
def ShiftsLimit : Prop :=
  valueAt b o depth s = naming (.tooDeep o.maxDepth) (valueAt b (o.lowered depth) 0) s

/-- At a depth, a value is read as at the root under the lowered limit, but for what becomes of
containers beyond. -/
theorem valueAt_eq_naming :
    valueAt b o depth = naming (o.refusal depth) (valueAt b (o.lowered depth) 0) := by
  have hvalue := value_naming b (o.unknownTags_lowered depth).symm (o.refusal depth)
    ((o.lowered depth).refusal 0) ((o.lowered depth).levels 0)
  rw [o.naming_refusal_lowered] at hvalue
  rw [valueAt, ← o.levels_lowered, hvalue, valueAt]

variable {b o depth s}

theorem shiftsLimit_of_ne (hdepth : depth ≠ 0xffff_ffff_ffff_ffff)
    (hlimit : o.maxDepth ≠ 0xffff_ffff_ffff_ffff) : ShiftsLimit b o depth s := by
  rw [ShiftsLimit, valueAt_eq_naming, Options.refusal_of_ne hlimit hdepth]

/-- Where the depth or the limit is the largest word, the depth is as good as a lower limit exactly
if nothing is nested too deeply under that. -/
theorem shiftsLimit_iff (h : depth = 0xffff_ffff_ffff_ffff ∨ o.maxDepth = 0xffff_ffff_ffff_ffff) :
    ShiftsLimit b o depth s ↔ ∀ limit offset after,
      valueAt b (o.lowered depth) 0 s ≠ .error (.tooDeep limit offset) after := by
  rw [ShiftsLimit, valueAt_eq_naming, Options.refusal_of_eq h]
  constructor
  · intro hshifts limit offset after htooDeep
    rw [naming_of_error htooDeep, naming_of_error htooDeep] at hshifts
    cases hshifts
  · intro hne
    rw [naming_of_ne_tooDeep hne, naming_of_ne_tooDeep hne]

/-- As long as the depth and the bytes of the window add up to a word, all depths in the window are
words. -/
theorem shiftsLimit_of_few_bytes (h : depth.toNat + s.cursor.stop < 0x1_0000_0000_0000_0000) :
    ShiftsLimit b o depth s := by
  by_cases hlargest : depth = 0xffff_ffff_ffff_ffff ∨ o.maxDepth = 0xffff_ffff_ffff_ffff
  · refine (shiftsLimit_iff hlargest).2 fun limit offset after htooDeep => ?_
    -- There are as many levels as bytes, or there is no byte.
    have hlevels : s.cursor.stop ≤ (o.lowered depth).levels 0 := by
      rw [Options.levels_zero, Options.toNat_maxDepth_lowered]
      obtain rfl | hlimit := hlargest
      · simp only [UInt64.reduceToNat] at h
        omega
      · rw [hlimit]
        simp only [UInt64.reduceToNat]
        omega
    obtain ⟨place, state, hfar, hin, -⟩ | ⟨-, hshallow⟩ :=
      value_fewer_levels b (Eq.refl (o.lowered depth).unknownTags) ((o.lowered depth).refusal 0)
        ((o.lowered depth).refusal 0) (Nat.le_refl ((o.lowered depth).levels 0)) s
    · omega
    · exact hshallow (.tooDeep limit) offset after htooDeep
  · exact shiftsLimit_of_ne (not_or.1 hlargest).1 (not_or.1 hlargest).2

theorem valueAt_of_containerAhead (hahead : ContainerAhead s.cursor) (hdepth : o.maxDepth ≤ depth) :
    valueAt b o depth s =
      .error (if depth = 0xffff_ffff_ffff_ffff then .overflow
          else .tooDeep o.maxDepth s.cursor.pos) ⟨s.cursor.advance 1, s.built⟩ := by
  rw [valueAt_eq_node, Options.enter]
  by_cases hlargest : depth = 0xffff_ffff_ffff_ffff
  · rw [if_pos hlargest, if_pos hlargest]
    exact node_refused_of_containerAhead hahead b o .overflow
  · have hnext : ¬ depth + 1 ≤ o.maxDepth := by
      rw [UInt64.le_iff_toNat_le] at hdepth ⊢
      rw [Options.toNat_add_one hlargest]
      omega
    rw [if_neg hlargest, if_neg hlargest, if_neg hnext]
    exact node_refused_of_containerAhead hahead b o (.tooDeep o.maxDepth)

/-- **A depth is as good as a limit that is lower by it**, as long as no depth is needed behind the
largest word. From every state, with every builder:

* Reading a value at the depth is reading one at the root under the lowered limit, with the same
  node, the same state of the builder, the same cursor and the same error, but for containers that
  are nested too deeply there. At the depth these are refused under the limit itself if neither the
  depth nor the limit is the largest word, and otherwise the program stops.
* So the depth shifts the limit if neither is the largest word, and else exactly if nothing is
  nested too deeply under the lowered limit. In any case it does so if the depth and the end of the
  window add up to a word.
* A container at a depth that the limit does not exceed is refused at its tag, unless the depth is
  the largest word. At that the program stops, and the limit is not even looked at. -/
theorem valueAt_shifts_limit (b : Builder σ ν) (o : Options) (depth : UInt64) (s : State σ) :
    valueAt b o depth s = naming (o.refusal depth) (valueAt b (o.lowered depth) 0) s ∧
    (depth ≠ 0xffff_ffff_ffff_ffff → o.maxDepth ≠ 0xffff_ffff_ffff_ffff →
      o.refusal depth = .tooDeep o.maxDepth ∧ ShiftsLimit b o depth s) ∧
    (depth = 0xffff_ffff_ffff_ffff ∨ o.maxDepth = 0xffff_ffff_ffff_ffff →
      o.refusal depth = .overflow ∧
      (ShiftsLimit b o depth s ↔ ∀ limit offset after,
        valueAt b (o.lowered depth) 0 s ≠ .error (.tooDeep limit offset) after)) ∧
    (depth.toNat + s.cursor.stop < 0x1_0000_0000_0000_0000 → ShiftsLimit b o depth s) ∧
    (ContainerAhead s.cursor → o.maxDepth ≤ depth →
      valueAt b o depth s =
        .error (if depth = 0xffff_ffff_ffff_ffff then .overflow
            else .tooDeep o.maxDepth s.cursor.pos) ⟨s.cursor.advance 1, s.built⟩) := by
  refine ⟨congrFun (valueAt_eq_naming b o depth) s, fun hdepth hlimit => ⟨?_, ?_⟩,
    fun h => ⟨?_, ?_⟩, fun h => ?_, fun hahead hdepth => ?_⟩
  · exact Options.refusal_of_ne hlimit hdepth
  · exact shiftsLimit_of_ne hdepth hlimit
  · exact Options.refusal_of_eq h
  · exact shiftsLimit_iff h
  · exact shiftsLimit_of_few_bytes h
  · exact valueAt_of_containerAhead hahead hdepth

/-- A null in two arrays, under a limit of three. Inside of two containers the inner array is
refused, and inside of three the outer one. At the largest depth the program stops there. -/
theorem valueAt_shifts_limit_nested :
    let s : State CallLog := ⟨Header.region ⟨9⟩ [9, 0, 0, 0, 0x0e, 1, 0x0e, 1, 0x00], {}⟩
    let b := Builder.callLog false
    let o : Options := { maxDepth := 3 }
    ContainerAhead s.cursor ∧
      ShiftsLimit b o 2 s ∧ (∃ after, valueAt b o 2 s = .error (.tooDeep 3 6) after) ∧
      (∃ after, valueAt b o 3 s = .error (.tooDeep 3 4) after) ∧
      ∃ after, valueAt b o 0xffff_ffff_ffff_ffff s = .error .overflow after := by
  intro s b o
  have hahead : ContainerAhead s.cursor := ⟨.array, [1, 0x0e, 1, 0x00], rfl, rfl⟩
  obtain ⟨-, htwo, -⟩ := valueAt_shifts_limit b o 2 s
  obtain ⟨-, -, -, -, hthree⟩ := valueAt_shifts_limit b o 3 s
  obtain ⟨-, -, -, -, hlargest⟩ := valueAt_shifts_limit b o 0xffff_ffff_ffff_ffff s
  obtain ⟨-, hshifts⟩ := htwo (by decide) (by decide)
  exact ⟨hahead, hshifts, ⟨_, rfl⟩, ⟨_, hthree hahead (by decide)⟩,
    ⟨_, hlargest hahead (by decide)⟩⟩

/-- At the largest depth the program stops in front of an empty array, although under the lowered
limit, which is zero, the array is nested too deeply. -/
theorem valueAt_not_shiftsLimit :
    let s : State Unit := ⟨Header.region ⟨6⟩ [6, 0, 0, 0, 0x0e, 0], ()⟩
    let o : Options := { maxDepth := 3 }
    ContainerAhead s.cursor ∧ o.maxDepth ≤ 0xffff_ffff_ffff_ffff ∧
      (∃ after, valueAt Builder.skip o 0xffff_ffff_ffff_ffff s = .error .overflow after) ∧
      ¬ ShiftsLimit Builder.skip o 0xffff_ffff_ffff_ffff s := by
  intro s o
  have hahead : ContainerAhead s.cursor := ⟨.array, [0], rfl, rfl⟩
  have hstopped := valueAt_of_containerAhead (b := Builder.skip) hahead
    (show o.maxDepth ≤ 0xffff_ffff_ffff_ffff by decide)
  refine ⟨hahead, by decide, ⟨_, hstopped⟩, fun hshifts => ?_⟩
  have htooDeep := valueAt_of_containerAhead (b := Builder.skip) hahead
    (show (o.lowered 0xffff_ffff_ffff_ffff).maxDepth ≤ 0 by decide)
  rw [if_neg (by decide)] at htooDeep
  exact (shiftsLimit_iff (.inl rfl)).1 hshifts _ _ _ htooDeep

end

end Walk

end WireTree
