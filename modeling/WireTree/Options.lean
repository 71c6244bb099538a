import WireTree.Error

/-!
# Options

What a reader of buffers can be told.

* `maxDepth` is the number of arrays and objects that may enclose a value, the root container
  counting as one.
* `unknownTags` decides between refusing a tag byte that names no kind and reading it as null.
* `exactSize` refuses buffers whose root value ends before the declared size.
-/

namespace WireTree

/-- What becomes of a tag byte that names no kind. -/
inductive UnknownTags where
  /-- The buffer is refused. -/
  | reject
  /-- The byte alone is a null. -/
  | null
  deriving DecidableEq, Repr

/-- The nesting limit unless another one is given. -/
def defaultMaxDepth : UInt64 := 256

/-- What a reader of buffers can be told. -/
structure Options where
  maxDepth : UInt64 := defaultMaxDepth
  unknownTags : UnknownTags := .reject
  exactSize : Bool := false
  deriving DecidableEq, Repr

/-- The same options with unknown tags refused, as validation wants them. -/
def Options.strict (o : Options) : Options :=
  { o with unknownTags := .reject }

/-- Why a container is not opened. -/
inductive Refusal where
  /-- It is nested more deeply than allowed. -/
  | tooDeep (maxDepth : UInt64)
  /-- The depth of the values in it is no machine word. -/
  | overflow
  deriving DecidableEq, Repr

/-- What becomes of a container at a place. -/
def Refusal.error (offset : Nat) : Refusal → DecodeError
  | tooDeep maxDepth => .tooDeep maxDepth offset
  | overflow => .overflow

namespace Options

/-- What opening a container inside of `depth` others gives: the depth of the values in it, or why
it is not opened. A depth that is no machine word stops the program before it is compared with the
limit. -/
def enter (o : Options) (depth : UInt64) : Except Refusal UInt64 :=
  if depth = 0xffff_ffff_ffff_ffff then .error .overflow
  else if depth + 1 ≤ o.maxDepth then .ok (depth + 1)
  else .error (.tooDeep o.maxDepth)

/-- How many containers may still be opened inside of each other in a value that `depth` containers
enclose. -/
def levels (o : Options) (depth : UInt64) : Nat :=
  o.maxDepth.toNat - depth.toNat

/-- Why a container is not opened where none of these levels is left. The depth of the values in it
is the one behind the limit then, or the one behind `depth` if that is larger. -/
def refusal (o : Options) (depth : UInt64) : Refusal :=
  if o.maxDepth = 0xffff_ffff_ffff_ffff ∨ depth = 0xffff_ffff_ffff_ffff then .overflow
  else .tooDeep o.maxDepth

/-! ## Levels as they are entered -/

/-- A root value may hold as many levels as the limit says. -/
@[simp] theorem levels_zero (o : Options) : o.levels 0 = o.maxDepth.toNat :=
  rfl

theorem refusal_of_ne {o : Options} {depth : UInt64} (hlimit : o.maxDepth ≠ 0xffff_ffff_ffff_ffff)
    (hdepth : depth ≠ 0xffff_ffff_ffff_ffff) : o.refusal depth = .tooDeep o.maxDepth :=
  if_neg (not_or.2 ⟨hlimit, hdepth⟩)

theorem refusal_zero {o : Options} (hlimit : o.maxDepth ≠ 0xffff_ffff_ffff_ffff) :
    o.refusal 0 = .tooDeep o.maxDepth :=
  refusal_of_ne hlimit (by decide)

section
variable {o : Options} {depth : UInt64}

theorem toNat_lt_largest_iff {n : UInt64} :
    n.toNat < 0xffff_ffff_ffff_ffff ↔ n ≠ 0xffff_ffff_ffff_ffff := by
  have hlt := n.toNat_lt
  rw [Ne, ← UInt64.toNat_inj]
  show _ ↔ ¬ n.toNat = 0xffff_ffff_ffff_ffff
  omega

/-- The depth of what is inside of a container, where it is a machine word. -/
theorem toNat_add_one (h : depth ≠ 0xffff_ffff_ffff_ffff) :
    (depth + 1).toNat = depth.toNat + 1 := by
  have hlt := toNat_lt_largest_iff.2 h
  rw [UInt64.toNat_add]
  exact Nat.mod_eq_of_lt (by show depth.toNat + 1 < _; omega)

/-- Opening a container takes one level, and does not change what becomes of those beyond. -/
theorem levels_of_enter_eq_ok {inner : UInt64} (h : o.enter depth = .ok inner) :
    o.levels depth = o.levels inner + 1 ∧ o.refusal depth = o.refusal inner := by
  unfold enter at h
  split at h
  · cases h
  · rename_i hdepth
    split at h
    · rename_i hle
      cases h
      have hnext := toNat_add_one hdepth
      have hlimit := o.maxDepth.toNat_lt
      rw [UInt64.le_iff_toNat_le, hnext] at hle
      refine ⟨by unfold levels; omega, ?_⟩
      unfold refusal
      congr 1
      -- If the next depth is the largest word, the limit is it as well.
      rw [← UInt64.toNat_inj, ← UInt64.toNat_inj, ← UInt64.toNat_inj, hnext]
      show (o.maxDepth.toNat = 0xffff_ffff_ffff_ffff ∨ depth.toNat = 0xffff_ffff_ffff_ffff) =
        (o.maxDepth.toNat = 0xffff_ffff_ffff_ffff ∨ depth.toNat + 1 = 0xffff_ffff_ffff_ffff)
      rw [eq_iff_iff]
      omega
    · cases h

/-- Where no container is opened, there is no level left. -/
theorem levels_of_enter_eq_error {refusal : Refusal}
    (h : o.enter depth = .error refusal) : o.levels depth = 0 ∧ o.refusal depth = refusal := by
  have hlimit := o.maxDepth.toNat_lt
  unfold enter at h
  split at h
  · rename_i hdepth
    cases h
    refine ⟨?_, if_pos (.inr hdepth)⟩
    subst hdepth
    exact Nat.sub_eq_zero_of_le (Nat.le_of_lt_succ hlimit)
  · rename_i hdepth
    split at h
    · cases h
    · rename_i hle
      cases h
      rw [UInt64.le_iff_toNat_le, toNat_add_one hdepth] at hle
      refine ⟨by unfold levels; omega, if_neg ?_⟩
      rintro (hmax | hmax)
      · refine hle (hmax ▸ ?_)
        exact Nat.succ_le_of_lt (toNat_lt_largest_iff.2 hdepth)
      · exact hdepth hmax

end

end Options

end WireTree
