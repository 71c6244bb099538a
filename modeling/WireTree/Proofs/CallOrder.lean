import WireTree.Builder.CallLog

/-!
# The order of calls

What the log of a builder looks like that has made a node with all that is in it, or a part of it.

* A call makes a node (`Call.made?`), which may be a container with a capacity (`Call.opened?`), or
  it puts an element into a container (`Call.attached?`). Nodes are numbered as they are made.
* `made calls` is the number of nodes made, `received calls c` that of the elements that `c` was
  given, and `attachments calls e` that of the containers to which `e` was given.
* A container is open until it has received as many elements as it was announced for (`IsOpen`). The
  innermost of the open ones is that which was made last (`Innermost`). A node is complete if it is
  made and not open (`Complete`).
* `Allowed before call` is what may be called in which place: a node that is made takes the next
  number, and an element that is given away is complete, is given away for the first time, and goes
  to the innermost open container, which is older.
* `Whole k calls k'`: the calls make the node `k` with all that is in it, which are the nodes before
  `k'`. In a container, each member is made as a whole and then put into it (`Members`).

Results:
* `Whole.summary`: in the end every container has received what it was announced for, and every node
  but the first was given away once.
* **`Whole.follows`**: each of the calls is allowed after those before it.
-/

namespace WireTree

namespace Call

/-- The node that a call makes. -/
def made? : Call → Option Nat
  | null k | bool k _ | integer k _ | uinteger k _ | real k _ | text k _ | bytes k _ => some k
  | array k _ | object k _ => some k
  | append _ _ | set _ _ _ => none

/-- The container that a call makes, and its capacity. -/
def opened? : Call → Option (Nat × Nat)
  | array k n | object k n => some (k, n)
  | _ => none

/-- The container that a call gives an element to, and the element. -/
def attached? : Call → Option (Nat × Nat)
  | append c e | set c _ e => some (c, e)
  | _ => none

theorem made?_of_opened? {call : Call} {k n : Nat} (h : call.opened? = some (k, n)) :
    call.made? = some k := by
  cases call <;> cases h <;> rfl

theorem attached?_of_made? {call : Call} {k : Nat} (h : call.made? = some k) :
    call.attached? = none := by
  cases call <;> first | rfl | cases h

theorem made?_of_attached? {call : Call} {c e : Nat} (h : call.attached? = some (c, e)) :
    call.made? = none := by
  cases call <;> first | rfl | cases h

theorem opened?_of_attached? {call : Call} {c e : Nat} (h : call.attached? = some (c, e)) :
    call.opened? = none := by
  cases call <;> first | rfl | cases h

end Call

namespace CallLog

/-! ## What calls add up to -/

/-- The number of nodes that calls make. -/
def made (calls : List Call) : Nat :=
  calls.countP fun call => call.made?.isSome

/-- The number of elements that calls give to a container. -/
def received (calls : List Call) (c : Nat) : Nat :=
  calls.countP fun call => call.attached?.any fun pair => pair.1 == c

/-- The number of times that calls give an element to a container. -/
def attachments (calls : List Call) (e : Nat) : Nat :=
  calls.countP fun call => call.attached?.any fun pair => pair.2 == e

/-- Among the calls is that which makes a container with a capacity. -/
def Announces (calls : List Call) (c n : Nat) : Prop :=
  ∃ call ∈ calls, call.opened? = some (c, n)

/-- Among the calls is one that gives a container an element. -/
def Attaches (calls : List Call) (c e : Nat) : Prop :=
  ∃ call ∈ calls, call.attached? = some (c, e)

section
variable {xs ys calls : List Call} {call : Call} {c e k n : Nat}

@[simp]
theorem made_append : made (xs ++ ys) = made xs + made ys :=
  List.countP_append

@[simp]
theorem received_append : received (xs ++ ys) c = received xs c + received ys c :=
  List.countP_append

@[simp]
theorem attachments_append : attachments (xs ++ ys) e = attachments xs e + attachments ys e :=
  List.countP_append

theorem announces_append : Announces (xs ++ ys) c n ↔ Announces xs c n ∨ Announces ys c n := by
  simp only [Announces, List.mem_append, or_and_right, exists_or]

theorem attaches_append : Attaches (xs ++ ys) c e ↔ Attaches xs c e ∨ Attaches ys c e := by
  simp only [Attaches, List.mem_append, or_and_right, exists_or]

theorem announces_singleton : Announces [call] c n ↔ call.opened? = some (c, n) := by
  simp only [Announces, List.mem_singleton, exists_eq_left]

theorem attaches_singleton : Attaches [call] c e ↔ call.attached? = some (c, e) := by
  simp only [Attaches, List.mem_singleton, exists_eq_left]

/-- A call that makes a node gives nothing away. -/
theorem not_attaches_of_made? (h : call.made? = some k) : ¬Attaches [call] c e := by
  rw [attaches_singleton, Call.attached?_of_made? h]
  nofun

/-- A call that gives an element away makes no container. -/
theorem not_announces_of_attached? {c' : Nat} (h : call.attached? = some (c', e)) :
    ¬Announces [call] c n := by
  rw [announces_singleton, Call.opened?_of_attached? h]
  nofun

theorem attaches_of_attached? {c' e' : Nat} (h : call.attached? = some (c', e'))
    (he : Attaches [call] c e) : c' = c ∧ e' = e := by
  rw [attaches_singleton, h, Option.some.injEq, Prod.mk.injEq] at he
  exact he

theorem announces_of_opened? {c' n' : Nat} (h : call.opened? = some (c', n'))
    (hc : Announces [call] c n) : c' = c ∧ n' = n := by
  rw [announces_singleton, h, Option.some.injEq, Prod.mk.injEq] at hc
  exact hc

/-- A container that no call gives anything to receives nothing. -/
theorem received_eq_zero (h : ∀ e, ¬Attaches calls c e) : received calls c = 0 := by
  refine List.countP_eq_zero.2 fun call hcall hc => ?_
  obtain ⟨⟨c', e⟩, hpair, hc'⟩ := (Option.any_eq_true _ _).1 hc
  obtain rfl : c' = c := eq_of_beq hc'
  exact h e ⟨call, hcall, hpair⟩

theorem attachments_eq_zero (h : ∀ c, ¬Attaches calls c e) : attachments calls e = 0 := by
  refine List.countP_eq_zero.2 fun call hcall he => ?_
  obtain ⟨⟨c, e'⟩, hpair, he'⟩ := (Option.any_eq_true _ _).1 he
  obtain rfl : e' = e := eq_of_beq he'
  exact h c ⟨call, hcall, hpair⟩

theorem made_of_made? (h : call.made? = some k) : made [call] = 1 := by
  rw [made, List.countP_singleton, h]
  rfl

theorem made_of_attached? (h : call.attached? = some (c, e)) : made [call] = 0 := by
  rw [made, List.countP_singleton, Call.made?_of_attached? h]
  rfl

theorem received_of_attached? (h : call.attached? = some (c, e)) (c' : Nat) :
    received [call] c' = if c = c' then 1 else 0 := by
  rw [received, List.countP_singleton, h]
  simp only [Option.any_some, beq_iff_eq]

theorem attachments_of_attached? (h : call.attached? = some (c, e)) (e' : Nat) :
    attachments [call] e' = if e = e' then 1 else 0 := by
  rw [attachments, List.countP_singleton, h]
  simp only [Option.any_some, beq_iff_eq]

end

/-! ## What may be called -/

/-- The container has been made, and may receive more. -/
def IsOpen (calls : List Call) (c : Nat) : Prop :=
  ∃ n, Announces calls c n ∧ received calls c < n

/-- The container is the last one made of those that are open. -/
def Innermost (calls : List Call) (c : Nat) : Prop :=
  IsOpen calls c ∧ ∀ c', IsOpen calls c' → c' ≤ c

/-- The node has been made and, if it is a container, has received all that it was announced for. -/
def Complete (calls : List Call) (e : Nat) : Prop :=
  e < made calls ∧ ∀ n, Announces calls e n → received calls e = n

/-- What may be called when some calls have been made. -/
inductive Allowed (before : List Call) (call : Call) : Prop
  /-- A node is made, and takes the next number. -/
  | making (h : call.made? = some (made before))
  /-- A complete node that is in no container yet is put into the innermost one that is open. -/
  | attaching {c e : Nat} (h : call.attached? = some (c, e)) (hinnermost : Innermost before c)
      (hlater : c < e) (hcomplete : Complete before e) (hfirst : attachments before e = 0)

/-- Each of the calls is allowed, one after the other. -/
def Follows : List Call → List Call → Prop
  | _, [] => True
  | before, call :: rest => Allowed before call ∧ Follows (before ++ [call]) rest

theorem follows_append {before xs ys : List Call} :
    Follows before (xs ++ ys) ↔ Follows before xs ∧ Follows (before ++ xs) ys := by
  induction xs generalizing before with
  | nil => simp [Follows]
  | cons call xs ih =>
    simp only [List.cons_append, Follows, ih, List.append_assoc, List.nil_append, and_assoc]

theorem Follows.allowed {before front rest : List Call} {call : Call}
    (h : Follows before (front ++ call :: rest)) : Allowed (before ++ front) call :=
  (follows_append.1 h).2.1

/-! ## Calls for a whole node -/

mutual

/-- The calls make a node and all that is in it. -/
inductive Whole : Nat → List Call → Nat → Prop
  | scalar {k : Nat} {call : Call} (h : call.made? = some k) (hscalar : call.opened? = none) :
      Whole k [call] (k + 1)
  | container {k n k' : Nat} {call : Call} {calls : List Call} (h : call.opened? = some (k, n))
      (hs : Members k n (k + 1) calls k') : Whole k ([call] ++ calls) k'

/-- The calls make a number of nodes with all that is in them, and put each into a container. -/
inductive Members : Nat → Nat → Nat → List Call → Nat → Prop
  | nil {c k : Nat} : Members c 0 k [] k
  | cons {c n k k' k'' : Nat} {calls rest : List Call} {call : Call} (h : Whole k calls k')
      (hattach : call.attached? = some (c, k)) (hs : Members c n k' rest k'') :
      Members c (n + 1) k (calls ++ ([call] ++ rest)) k''

end

/-- What the calls for a whole node add up to. -/
structure Summary (k : Nat) (calls : List Call) (k' : Nat) : Prop where
  lt : k < k'
  made : k + made calls = k'
  announces : ∀ c n, Announces calls c n → k ≤ c ∧ c < k' ∧ received calls c = n
  attaches : ∀ c e, Attaches calls c e → k ≤ c ∧ c < e ∧ e < k'
  once : ∀ e, k < e → e < k' → attachments calls e = 1

/-- What the calls for the members of a container add up to. -/
structure MembersSummary (c₀ n₀ k : Nat) (calls : List Call) (k' : Nat) : Prop where
  le : k ≤ k'
  made : k + made calls = k'
  received : received calls c₀ = n₀
  announces : ∀ c n, Announces calls c n → k ≤ c ∧ c < k' ∧ CallLog.received calls c = n
  attaches : ∀ c e, Attaches calls c e → (c = c₀ ∨ k ≤ c) ∧ c < e ∧ k ≤ e ∧ e < k'
  once : ∀ e, k ≤ e → e < k' → attachments calls e = 1

section
variable {c₀ n₀ k k' k'' : Nat} {call : Call} {calls rest : List Call}

theorem summary_scalar (h : call.made? = some k) (hscalar : call.opened? = none) :
    Summary k [call] (k + 1) where
  lt := Nat.lt_succ_self k
  made := by rw [made_of_made? h]
  announces := by
    intro c n hc
    rw [announces_singleton, hscalar] at hc
    cases hc
  attaches := fun c e he => absurd he (not_attaches_of_made? h)
  once := by
    intro e hlow hhigh
    omega

theorem summary_container (h : call.opened? = some (k, n₀))
    (hs : MembersSummary k n₀ (k + 1) calls k') : Summary k ([call] ++ calls) k' := by
  have hmade := Call.made?_of_opened? h
  have hattaches : ∀ c e, ¬Attaches [call] c e := fun c e => not_attaches_of_made? hmade
  have hsame : ∀ c, received ([call] ++ calls) c = received calls c := fun c => by
    rw [received_append, received_eq_zero (hattaches c), Nat.zero_add]
  refine ⟨hs.le, ?_, fun c n hc => ?_, fun c e he => ?_, fun e hlow hhigh => ?_⟩
  · have := hs.made
    rw [made_append, made_of_made? hmade]
    omega
  · rw [hsame]
    rcases announces_append.1 hc with hc | hc
    · obtain ⟨rfl, rfl⟩ := announces_of_opened? h hc
      exact ⟨Nat.le_refl _, hs.le, hs.received⟩
    · obtain ⟨hlow, hhigh, hc⟩ := hs.announces c n hc
      exact ⟨by omega, hhigh, hc⟩
  · obtain ⟨hc, hlt, -, hhigh⟩ :=
      hs.attaches c e ((attaches_append.1 he).resolve_left (hattaches c e))
    exact ⟨by omega, hlt, hhigh⟩
  · rw [attachments_append, attachments_eq_zero fun c => hattaches c e, Nat.zero_add]
    exact hs.once e hlow hhigh

theorem membersSummary_nil : MembersSummary c₀ 0 k [] k where
  le := Nat.le_refl k
  made := rfl
  received := rfl
  announces := by
    rintro c n ⟨_, hcall, -⟩
    cases hcall
  attaches := by
    rintro c e ⟨_, hcall, -⟩
    cases hcall
  once := by
    intro e hlow hhigh
    omega

/-- Outside of the nodes of the first member and of the container, it changes nothing. -/
theorem membersSummary_cons (hc₀ : c₀ < k) (h : Summary k calls k')
    (hattach : call.attached? = some (c₀, k)) (hs : MembersSummary c₀ n₀ k' rest k'') :
    MembersSummary c₀ (n₀ + 1) k (calls ++ ([call] ++ rest)) k'' := by
  have hlt := h.lt
  have hle := hs.le
  have hreceived := received_of_attached? hattach
  have hattachments := attachments_of_attached? hattach
  refine ⟨by omega, ?_, ?_, fun c n hc => ?_, fun c e he => ?_, fun e hlow hhigh => ?_⟩
  · have := h.made
    have := hs.made
    rw [made_append, made_append, made_of_attached? hattach]
    omega
  · have hno : received calls c₀ = 0 := received_eq_zero fun e he => by
      have := h.attaches c₀ e he
      omega
    rw [received_append, received_append, hno, hreceived, if_pos rfl, hs.received]
    omega
  · rw [received_append, received_append, hreceived]
    rcases announces_append.1 hc with hc | hc
    · obtain ⟨hlow, hhigh, hc⟩ := h.announces c n hc
      have hno : received rest c = 0 := received_eq_zero fun e he => by
        have := (hs.attaches c e he).1
        omega
      rw [hc, hno, if_neg (by omega)]
      exact ⟨hlow, by omega, rfl⟩
    · replace hc := (announces_append.1 hc).resolve_left (not_announces_of_attached? hattach)
      obtain ⟨hlow, hhigh, hc⟩ := hs.announces c n hc
      have hno : received calls c = 0 := received_eq_zero fun e he => by
        have := h.attaches c e he
        omega
      rw [hc, hno, if_neg (by omega), Nat.zero_add, Nat.zero_add]
      exact ⟨by omega, hhigh, rfl⟩
  · rcases attaches_append.1 he with he | he
    · have := h.attaches c e he
      omega
    · rcases attaches_append.1 he with he | he
      · have := attaches_of_attached? hattach he
        omega
      · have := hs.attaches c e he
        omega
  · have hfront : e ≤ k ∨ k' ≤ e → attachments calls e = 0 := fun hout =>
      attachments_eq_zero fun c he => by
        have := h.attaches c e he
        omega
    have hback : e < k' → attachments rest e = 0 := fun hout =>
      attachments_eq_zero fun c he => by
        have := hs.attaches c e he
        omega
    rw [attachments_append, attachments_append, hattachments]
    -- The element is this member, or inside of it, or in one of those that follow.
    rcases Nat.lt_trichotomy k e with hinside | rfl | hbefore
    · rw [if_neg (by omega)]
      rcases Nat.lt_or_ge e k' with hfirst | hlater
      · rw [h.once e hinside hfirst, hback hfirst]
      · rw [hfront (.inr hlater), hs.once e hlater hhigh]
    · rw [if_pos rfl, hfront (.inl (Nat.le_refl _)), hback hlt]
    · omega

end

mutual

/-- **In the end every container has received what it was announced for, and every node but the
first was given away once.** -/
theorem Whole.summary {k k' : Nat} {calls : List Call} : Whole k calls k' → Summary k calls k'
  | .scalar h hscalar => summary_scalar h hscalar
  | .container h hs => summary_container h (hs.summary (Nat.lt_succ_self _))

theorem Members.summary {c n k k' : Nat} {calls : List Call} (hc : c < k) :
    Members c n k calls k' → MembersSummary c n k calls k'
  | .nil => membersSummary_nil
  | .cons h hattach hs =>
    membersSummary_cons hc h.summary hattach (hs.summary (Nat.lt_trans hc h.summary.lt))

end

/-! ## Calls are in order -/

/-- The calls have made the nodes up to `k`, and know no other. -/
structure Reaches (calls : List Call) (k : Nat) : Prop where
  made : made calls = k
  announces : ∀ c n, Announces calls c n → c < k
  attaches : ∀ c e, Attaches calls c e → c < k ∧ e < k

theorem reaches_nil : Reaches [] 0 where
  made := rfl
  announces := by
    rintro c n ⟨_, hcall, -⟩
    cases hcall
  attaches := by
    rintro c e ⟨_, hcall, -⟩
    cases hcall

section
variable {before calls rest : List Call} {call : Call} {c₀ n₀ k k' k'' : Nat}

theorem Reaches.received_of_le (h : Reaches before k) {c : Nat} (hc : k ≤ c) :
    received before c = 0 :=
  received_eq_zero fun e he => by
    have := h.attaches c e he
    omega

theorem Reaches.opened (h : Reaches before k) (hopen : call.opened? = some (k, n₀)) :
    Reaches (before ++ [call]) (k + 1) := by
  have hmade := Call.made?_of_opened? hopen
  refine ⟨?_, fun c n hc => ?_, fun c e he => ?_⟩
  · rw [made_append, h.made, made_of_made? hmade]
  · rcases announces_append.1 hc with hc | hc
    · exact Nat.lt_succ_of_lt (h.announces c n hc)
    · have := announces_of_opened? hopen hc
      omega
  · have := h.attaches c e ((attaches_append.1 he).resolve_right (not_attaches_of_made? hmade))
    omega

theorem Reaches.attached (h : Reaches before k') (hc₀ : c₀ < k) (hlt : k < k')
    (hattach : call.attached? = some (c₀, k)) : Reaches (before ++ [call]) k' := by
  refine ⟨?_, fun c n hc => ?_, fun c e he => ?_⟩
  · rw [made_append, h.made, made_of_attached? hattach, Nat.add_zero]
  · exact h.announces c n
      ((announces_append.1 hc).resolve_right (not_announces_of_attached? hattach))
  · rcases attaches_append.1 he with he | he
    · exact h.attaches c e he
    · have := attaches_of_attached? hattach he
      omega

theorem Reaches.whole (h : Reaches before k) (hs : Summary k calls k') :
    Reaches (before ++ calls) k' := by
  have hlt := hs.lt
  refine ⟨?_, fun c n hc => ?_, fun c e he => ?_⟩
  · rw [made_append, h.made, hs.made]
  · rcases announces_append.1 hc with hc | hc
    · exact Nat.lt_trans (h.announces c n hc) hlt
    · exact (hs.announces c n hc).2.1
  · rcases attaches_append.1 he with he | he
    · have := h.attaches c e he
      omega
    · have := hs.attaches c e he
      omega

/-- The container is the innermost open one, and room is left in it for a number of elements. -/
structure HasRoom (before : List Call) (c n : Nat) : Prop where
  announces : ∃ capacity, Announces before c capacity ∧ received before c + n ≤ capacity
  innermost : ∀ c', IsOpen before c' → c' ≤ c

theorem Reaches.hasRoom (h : Reaches before k) (hopen : call.opened? = some (k, n₀)) :
    HasRoom (before ++ [call]) k n₀ := by
  have hreaches := h.opened hopen
  have hmade := Call.made?_of_opened? hopen
  refine ⟨⟨n₀, announces_append.2 (.inr (announces_singleton.2 hopen)), ?_⟩, ?_⟩
  · have hno : received [call] k = 0 := received_eq_zero fun e => not_attaches_of_made? hmade
    rw [received_append, h.received_of_le (Nat.le_refl k), hno]
    omega
  · rintro c' ⟨n, hc', -⟩
    exact Nat.le_of_lt_succ (hreaches.announces c' n hc')

/-- A whole node leaves the containers before it as they were, and none of its own open. -/
theorem HasRoom.whole (hroom : HasRoom before c₀ n₀) (h : Reaches before k) (hc₀ : c₀ < k)
    (hs : Summary k calls k') : HasRoom (before ++ calls) c₀ n₀ := by
  have hno : ∀ c < k, received calls c = 0 := fun c hc => received_eq_zero fun e he => by
    have := hs.attaches c e he
    omega
  refine ⟨?_, ?_⟩
  · obtain ⟨capacity, hannounces, hle⟩ := hroom.announces
    refine ⟨capacity, announces_append.2 (.inl hannounces), ?_⟩
    rw [received_append, hno c₀ hc₀]
    exact hle
  · rintro c' ⟨n, hc', hlt⟩
    rw [received_append] at hlt
    rcases announces_append.1 hc' with hc' | hc'
    · rw [hno c' (h.announces c' n hc'), Nat.add_zero] at hlt
      exact hroom.innermost c' ⟨n, hc', hlt⟩
    · obtain ⟨hlow, -, hfull⟩ := hs.announces c' n hc'
      rw [h.received_of_le hlow, hfull] at hlt
      omega

theorem HasRoom.attached (hroom : HasRoom before c₀ (n₀ + 1))
    (hattach : call.attached? = some (c₀, k)) : HasRoom (before ++ [call]) c₀ n₀ := by
  have hreceived := received_of_attached? hattach
  refine ⟨?_, ?_⟩
  · obtain ⟨capacity, hannounces, hle⟩ := hroom.announces
    refine ⟨capacity, announces_append.2 (.inl hannounces), ?_⟩
    rw [received_append, hreceived, if_pos rfl]
    omega
  · rintro c' ⟨n, hc', hlt⟩
    rw [received_append] at hlt
    replace hc' := (announces_append.1 hc').resolve_right (not_announces_of_attached? hattach)
    exact hroom.innermost c' ⟨n, hc', by omega⟩

/-- The node that was made last may be put into the innermost open container. -/
theorem allowed_attach (hroom : HasRoom before c₀ (n₀ + 1)) (h : Reaches before k) (hc₀ : c₀ < k)
    (hs : Summary k calls k') (hattach : call.attached? = some (c₀, k)) :
    Allowed (before ++ calls) call := by
  have hroom' := hroom.whole h hc₀ hs
  have hreaches := h.whole hs
  refine .attaching hattach ⟨?_, hroom'.innermost⟩ hc₀ ⟨?_, fun n hn => ?_⟩ ?_
  · obtain ⟨capacity, hannounces, hle⟩ := hroom'.announces
    exact ⟨capacity, hannounces, by omega⟩
  · rw [hreaches.made]
    exact hs.lt
  · rw [received_append, h.received_of_le (Nat.le_refl k), Nat.zero_add]
    rcases announces_append.1 hn with hn | hn
    · exact absurd (h.announces k n hn) (Nat.lt_irrefl k)
    · exact (hs.announces k n hn).2.2
  · refine attachments_eq_zero fun c he => ?_
    rcases attaches_append.1 he with he | he
    · have := h.attaches c k he
      omega
    · have := hs.attaches c k he
      omega

end

mutual

/-- **Each of the calls for a whole node is allowed after those before it.** -/
theorem Whole.follows {before calls : List Call} {k k' : Nat} (hreaches : Reaches before k) :
    Whole k calls k' → Follows before calls
  | .scalar h _ => ⟨.making (hreaches.made.symm ▸ h), trivial⟩
  | .container h hs => by
    have hmade := Call.made?_of_opened? h
    have hfirst : Allowed before _ := .making (hreaches.made.symm ▸ hmade)
    have hroom := hreaches.hasRoom h
    exact ⟨hfirst, hs.follows (hreaches.opened h) (Nat.lt_succ_self _) hroom⟩

theorem Members.follows {before calls : List Call} {c n k k' : Nat} (hreaches : Reaches before k)
    (hc : c < k) (hroom : HasRoom before c n) : Members c n k calls k' → Follows before calls
  | .nil => trivial
  | .cons h hattach hs => by
    have hsummary := h.summary
    have hwhole := hreaches.whole hsummary
    have hrest := hs.follows (hwhole.attached hc hsummary.lt hattach)
      (Nat.lt_trans hc hsummary.lt) ((hroom.whole hreaches hc hsummary).attached hattach)
    refine follows_append.2 ⟨h.follows hreaches, ?_, hrest⟩
    exact allowed_attach hroom hreaches hc hsummary hattach

end

end CallLog

end WireTree
