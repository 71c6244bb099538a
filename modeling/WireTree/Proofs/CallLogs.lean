import WireTree.Proofs.Region
import WireTree.Proofs.TreeCalls
import WireTree.Proofs.Truncation
import WireTree.Proofs.WalkSteps

/-!
# What a builder is asked to do

The calls that a walk makes, as a builder sees them that writes them down.

* `Walk.Untouched m`: the action leaves the builder as it is.
* `Walk.Written G x log result`: in the result, the log has gone on by calls with `G`, and `x` is
  the answer, or it has gone on by the front of such calls and there is an error.
* `Walk.Begun lost full short`: the result `short` without the bytes `lost` is `full`, up to these,
  or an error with a log that is the front of that in `full`.
* `decodeCalls unsigned o bytes` are the calls that are made for a buffer.

A walk that fails has made the front of the calls for some whole node: what is missing are calls for
the rest, whatever that would have been.

Results:
* **`Walk.written_value`**: whether it succeeds or fails, a walk makes the calls for a whole node in
  order, as far as it comes.
* `Walk.begins_value`: over a shorter window, it makes a front of the calls.
* **`decodeWith_callLog`**: so what a builder is asked to do is in order for every buffer.
-/

namespace WireTree

open CallLog
open Cursor (facing)

variable {α β : Type}

/-! ## Logs of walks -/

/-- The request is for a node that is no container. -/
def Request.isScalar {ν : Type} : Request ν → Bool
  | null | bool _ | integer _ | uinteger _ | real _ | text _ | bytes _ => true
  | array _ | append _ _ | object _ | set _ _ _ => false

/-- Whatever is asked for, one call is written down. A scalar is made as the next node. -/
theorem answer_callLog (unsigned : Bool) (r : Request Nat) (log : CallLog) :
    ∃ node next call,
      (Builder.callLog unsigned).answer r log = (node, log.extend next [call]) ∧
      (r.isScalar = true → node = log.next ∧ next = log.next + 1 ∧
        call.made? = some log.next ∧ call.opened? = none) := by
  have hmake : ∀ call : Nat → Call, (call log.next).made? = some log.next →
      (call log.next).opened? = none → ∃ node next call',
        CallLog.make call log = (node, log.extend next [call']) ∧
        (r.isScalar = true → node = log.next ∧ next = log.next + 1 ∧
          call'.made? = some log.next ∧ call'.opened? = none) :=
    fun call hmade hscalar =>
      ⟨_, _, _, CallLog.make_eq call log, fun _ => ⟨rfl, rfl, hmade, hscalar⟩⟩
  cases r with
  | null => exact hmake .null rfl rfl
  | bool x => exact hmake (.bool · x) rfl rfl
  | integer n => exact hmake (.integer · n) rfl rfl
  | uinteger n =>
    cases unsigned with
    | true => exact hmake (.uinteger · n) rfl rfl
    | false => exact hmake (.integer · n.toInt64) rfl rfl
  | real x => exact hmake (.real · x) rfl rfl
  | text s => exact hmake (.text · s) rfl rfl
  | bytes bs => exact hmake (.bytes · bs) rfl rfl
  | array n => exact ⟨_, _, _, CallLog.make_eq (.array · n) log, nofun⟩
  | append array element =>
    exact ⟨_, _, _, CallLog.change_eq array (.append array element) log, nofun⟩
  | object n => exact ⟨_, _, _, CallLog.make_eq (.object · n) log, nofun⟩
  | set object key value =>
    exact ⟨_, _, _, CallLog.change_eq object (.set object key value) log, nofun⟩

namespace Walk

/-- The action leaves the builder as it is. -/
def Untouched {σ : Type} (m : Walk σ α) : Prop :=
  ∀ s, (stateAfter (m s)).built = s.built

section
variable {σ ν : Type}

/-- What does not depend on the builder leaves it as it is. -/
theorem untouched_of_inStep {m : Walk σ α} (h : ∀ s, InStep (fun s₁ _ => s₁ = s) Eq m m) :
    Untouched m := by
  rintro ⟨c, s⟩
  have hstep := h s c s s rfl
  generalize m ⟨c, s⟩ = result at hstep
  cases hstep with
  | ok after hx hs => exact hs
  | error after e hs => exact hs

theorem untouched_reading (m : Cursor.Read α) : Untouched (reading m : Walk σ α) :=
  untouched_of_inStep fun _ => inStep_reading m

theorem untouched_count (unit : Nat) : Untouched (count unit : Walk σ Nat) :=
  untouched_of_inStep fun _ => inStep_count unit

theorem readCoupling_untouched :
    ReadCoupling (fun _ => True) fun (m : Walk σ _) (_ : Walk σ _) => Untouched m where
  cursor := ⟨fun _ => trivial, fun _ _ => trivial, fun _ => trivial, fun _ => trivial⟩
  pure := fun _ _ => rfl
  bind := stateAfter_bind (R := fun s s' : State σ => s'.built = s.built) fun h h' => h'.trans h
  reading := fun {_} {m} _ => untouched_reading m
  count := untouched_count

/-- What is asked for a payload without other values in it is a scalar. -/
theorem isScalar_of_request {tag : Tag} {s s' : State σ} {r : Request ν}
    (h : request tag s = .ok r s') : r.isScalar = true := by
  have hmap : ∀ {α : Type} (m : Walk σ α) (f : α → Request ν), (∀ x, (f x).isScalar = true) →
      (do return f (← m)) s = .ok r s' → r.isScalar = true := by
    intro α m f hf h
    obtain ⟨x, _, -, hr⟩ := bind_eq_ok_iff.1 h
    cases hr
    exact hf x
  cases tag with
  | bool => exact hmap _ _ (fun _ => rfl) h
  | int w => exact hmap _ _ (fun _ => rfl) h
  | uint w => cases w <;> exact hmap _ _ (fun _ => rfl) h
  | single => exact hmap _ _ (fun _ => rfl) h
  | double => exact hmap _ _ (fun _ => rfl) h
  | text => exact hmap _ _ (fun _ => rfl) h
  | bytes =>
    obtain ⟨n, _, -, h⟩ := bind_eq_ok_iff.1 h
    obtain ⟨x, _, -, hr⟩ := bind_eq_ok_iff.1 h
    cases hr
    rfl
  | null | array | object =>
    cases h
    rfl

end

/-- In the result, the log has gone on by calls with `G`, which take the numbers up to some node,
and `x` is the answer. Or it has gone on by the front of such calls, and there is an error. -/
inductive Written (G : List Call → Nat → Prop) (x : Nat) (log : CallLog) :
    EStateM.Result DecodeError (State CallLog) Nat → Prop
  | ok {calls : List Call} {next : Nat} (h : G calls next) (c : Cursor) :
      Written G x log (.ok x ⟨c, log.extend next calls⟩)
  | error {calls front : List Call} {next : Nat} (h : G calls next) (hfront : front <+: calls)
      {e : DecodeError} {after : State CallLog}
      (hlog : after.built.calls.toList = log.calls.toList ++ front) :
      Written G x log (.error e after)

section
variable {G K : List Call → Nat → Prop} {H : Nat → List Call → Nat → Prop} {x y : Nat}
  {log : CallLog} {c : Cursor}

/-- Where the first action fails, any calls will do for the second. -/
theorem Written.bind {m : Walk CallLog Nat} {f : Nat → Walk CallLog Nat} {s : State CallLog}
    (hm : Written G x log (m s))
    (hf : ∀ c calls next, G calls next →
      Written (H next) y (log.extend next calls) (f x ⟨c, log.extend next calls⟩))
    (hfill : ∀ next, ∃ calls next', H next calls next')
    (hjoin : ∀ {calls next rest next'}, G calls next → H next rest next' →
      K (calls ++ rest) next') :
    Written K y log ((m >>= f) s) := by
  generalize hresult : m s = result at hm
  cases hm with
  | ok h c =>
    rw [bind_of_eq_ok hresult]
    have hrest := hf c _ _ h
    generalize f x _ = result at hrest
    cases hrest with
    | ok h' c' =>
      rw [CallLog.extend_extend]
      exact .ok (hjoin h h') c'
    | error h' hfront hlog =>
      refine .error (hjoin h h') ((List.prefix_append_right_inj _).2 hfront) ?_
      rw [hlog, CallLog.toList_extend, List.append_assoc]
  | @error calls front next h hfront e after hlog =>
    rw [bind_of_eq_error hresult]
    obtain ⟨rest, next', h'⟩ := hfill next
    exact .error (hjoin h h') (hfront.trans (List.prefix_append calls rest)) hlog

theorem written_throw (hfill : ∃ calls next, G calls next) (e : DecodeError) :
    Written G x log ((throw e : Walk CallLog Nat) ⟨c, log⟩) := by
  obtain ⟨calls, next, h⟩ := hfill
  exact .error h List.nil_prefix (List.append_nil _).symm

/-- An action that leaves the builder as it is may come first. -/
theorem Written.after {m : Walk CallLog α} {f : α → Walk CallLog Nat} (hm : Untouched m)
    (hfill : ∃ calls next, G calls next)
    (hf : ∀ x c', m ⟨c, log⟩ = .ok x ⟨c', log⟩ → Written G y log (f x ⟨c', log⟩)) :
    Written G y log ((m >>= f) ⟨c, log⟩) := by
  have hlog := hm ⟨c, log⟩
  cases hresult : m ⟨c, log⟩ with
  | error e after =>
    rw [hresult] at hlog
    rw [bind_of_eq_error hresult]
    obtain ⟨calls, next, h⟩ := hfill
    refine .error h List.nil_prefix ?_
    rw [List.append_nil]
    exact congrArg (·.calls.toList) hlog
  | ok x after =>
    obtain ⟨c', log'⟩ := after
    rw [hresult] at hlog
    obtain rfl : log' = log := hlog
    rw [bind_of_eq_ok hresult]
    exact hf x c' hresult

theorem written_make (call : Nat → Call) (h : G [call log.next] (log.next + 1)) :
    Written G log.next log (building (CallLog.make call) ⟨c, log⟩) := by
  have hmake : building (CallLog.make call) ⟨c, log⟩ =
      .ok log.next ⟨c, log.extend (log.next + 1) [call log.next]⟩ := by
    simp only [building, CallLog.make_eq]
  rw [hmake]
  exact .ok h c

theorem written_change {call : Call} (h : G [call] log.next) :
    Written G x log (building (CallLog.change x call) ⟨c, log⟩) := by
  have hchange : building (CallLog.change x call) ⟨c, log⟩ =
      .ok x ⟨c, log.extend log.next [call]⟩ := by
    simp only [building, CallLog.change_eq]
  rw [hchange]
  exact .ok h c

end

/-- The calls make a node with all that is in it, and put it into a container. -/
def Member (c k : Nat) (calls : List Call) (next : Nat) : Prop :=
  ∃ whole call, calls = whole ++ [call] ∧ Whole k whole next ∧ call.attached? = some (c, k)

theorem exists_whole (k : Nat) : ∃ calls next, Whole k calls next :=
  ⟨[.null k], k + 1, .scalar rfl rfl⟩

theorem exists_member (c k : Nat) : ∃ calls next, Member c k calls next :=
  ⟨[.null k] ++ [.append c k], k + 1, _, _, rfl, .scalar rfl rfl, rfl⟩

theorem exists_members (c n k : Nat) : ∃ calls next, Members c n k calls next := by
  induction n generalizing k with
  | zero => exact ⟨[], k, .nil⟩
  | succ n ih =>
    obtain ⟨whole, next, h⟩ := exists_whole k
    obtain ⟨rest, next', hs⟩ := ih next
    have hattach : (Call.append c k).attached? = some (c, k) := rfl
    exact ⟨_, next', .cons h hattach hs⟩

/-- From everywhere, the walk writes the calls for a whole node, as far as it comes. -/
def WritesWhole (m : Walk CallLog Nat) : Prop :=
  ∀ c log, Written (Whole log.next) log.next log (m ⟨c, log⟩)

/-- From everywhere, the step writes the calls for a member of the container, as far as it comes. -/
def WritesMember (step : Nat → Walk CallLog Nat) : Prop :=
  ∀ node c log, Written (Member node log.next) node log (step node ⟨c, log⟩)

section
variable {unsigned : Bool} {inner : Walk CallLog Nat} {step : Nat → Walk CallLog Nat}

/-- A value is read and then put into the container. -/
theorem written_attach (h : WritesWhole inner) (node : Nat) (call : Nat → Call)
    (hcall : ∀ element, (call element).attached? = some (node, element)) (c : Cursor)
    (log : CallLog) :
    Written (Member node log.next) node log
      ((do let element ← inner; building (CallLog.change node (call element))) ⟨c, log⟩) := by
  have hput : ∀ c calls next, Whole log.next calls next →
      Written (fun rest next' => rest = [call log.next] ∧ next' = next) node
        (log.extend next calls)
        (building (CallLog.change node (call log.next)) ⟨c, log.extend next calls⟩) :=
    fun c calls next _ => written_change ⟨rfl, rfl⟩
  refine (h c log).bind hput (fun next => ⟨_, _, rfl, rfl⟩) ?_
  rintro calls next rest next' hwhole ⟨rfl, rfl⟩
  exact ⟨calls, call log.next, rfl, hwhole, hcall _⟩

theorem writesMember_element (h : WritesWhole inner) :
    WritesMember (element (Builder.callLog unsigned) inner) :=
  fun node => written_attach h node (.append node) fun _ => rfl

theorem writesMember_pair (h : WritesWhole inner) :
    WritesMember (pair (Builder.callLog unsigned) inner) := by
  intro node c log
  have htext : Untouched (text : Walk CallLog String) := readCoupling_untouched.text
  refine Written.after htext (exists_member node log.next) fun key c' _ => ?_
  exact written_attach h node (.set node key) (fun _ => rfl) c' log

/-- Member by member, all the members of a container are read. -/
theorem written_times (h : WritesMember step) (n node : Nat) (c : Cursor) (log : CallLog) :
    Written (Members node n log.next) node log (times n step node ⟨c, log⟩) := by
  induction n generalizing c log with
  | zero =>
    have hok : Written (Members node 0 log.next) node log
        (.ok node ⟨c, log.extend log.next []⟩) := .ok .nil c
    rw [CallLog.extend_nil] at hok
    exact hok
  | succ n ih =>
    refine (h node c log).bind (fun c calls next _ => ih c (log.extend next calls))
      (exists_members node n) ?_
    rintro _ next rest next' ⟨whole, call, rfl, hwhole, hcall⟩ hs
    rw [List.append_assoc]
    exact .cons hwhole hcall hs

/-- A count is read, a container is made, and then its members are read. -/
theorem writesWhole_counted (h : WritesMember step) (unit : Nat) (call : Nat → Nat → Call)
    (hcall : ∀ n k, (call n k).opened? = some (k, n)) :
    WritesWhole (counted unit (fun n => CallLog.make (call n)) step) := by
  intro c log
  refine Written.after (untouched_count unit) (exists_whole log.next) fun n c' _ => ?_
  have hopen : Written (fun calls next => calls = [call n log.next] ∧ next = log.next + 1) log.next
      log (building (CallLog.make (call n)) ⟨c', log⟩) := written_make (call n) ⟨rfl, rfl⟩
  have hrest := written_times h n log.next
  refine hopen.bind (fun c calls next _ => hrest c (log.extend next calls))
    (exists_members log.next n) ?_
  rintro _ _ rest next' ⟨rfl, rfl⟩ hs
  exact .container (hcall n _) hs

theorem writesWhole_array (h : WritesWhole inner) :
    WritesWhole (array (Builder.callLog unsigned) inner) :=
  writesWhole_counted (writesMember_element h) 1 (fun n => (.array · n)) fun _ _ => rfl

theorem writesWhole_object (h : WritesWhole inner) :
    WritesWhole (object (Builder.callLog unsigned) inner) :=
  writesWhole_counted (writesMember_pair h) 2 (fun n => (.object · n)) fun _ _ => rfl

theorem writesWhole_scalar {r : Request Nat} (h : r.isScalar = true) :
    WritesWhole (building ((Builder.callLog unsigned).answer r)) := by
  intro c log
  obtain ⟨node, next, call, hanswer, hnode⟩ := answer_callLog unsigned r log
  obtain ⟨rfl, rfl, hmade, hscalar⟩ := hnode h
  have hbuilt : building ((Builder.callLog unsigned).answer r) ⟨c, log⟩ =
      .ok log.next ⟨c, log.extend (log.next + 1) [call]⟩ := by
    simp only [building, hanswer]
  rw [hbuilt]
  exact .ok (.scalar hmade hscalar) c

theorem writesWhole_told (tag : Tag) : WritesWhole (told (Builder.callLog unsigned) tag) := by
  intro c log
  have hrequest : Untouched (request tag : Walk CallLog (Request Nat)) :=
    readCoupling_untouched.request tag
  refine Written.after hrequest (exists_whole log.next) fun r c' hr => ?_
  exact writesWhole_scalar (isScalar_of_request hr) c' log

theorem writesWhole_afterTag (o : Options) {inner : Interior CallLog Nat}
    (h : ∀ w, inner = .ok w → WritesWhole w) (offset : Nat) (byte : UInt8) :
    WritesWhole (afterTag (Builder.callLog unsigned) o inner offset byte) := by
  intro c log
  unfold afterTag
  cases Tag.ofByte? byte with
  | none =>
    cases o.unknownTags with
    | reject => exact written_throw (exists_whole log.next) _
    | null => exact writesWhole_scalar (r := .null) rfl c log
  | some tag =>
    cases inner with
    | error =>
      simp only
      split
      · exact written_throw (exists_whole log.next) _
      · exact writesWhole_told tag c log
    | ok w =>
      have hw := h w rfl
      simp only [container]
      split
      · split
        · exact writesWhole_array hw c log
        · exact writesWhole_object hw c log
      · exact writesWhole_told tag c log

theorem writesWhole_node (o : Options) {inner : Interior CallLog Nat}
    (h : ∀ w, inner = .ok w → WritesWhole w) :
    WritesWhole (node (Builder.callLog unsigned) o inner) := by
  intro c log
  rw [node_eq]
  cases c.rest with
  | nil => exact written_throw (exists_whole log.next) _
  | cons byte rest => exact writesWhole_afterTag o h c.pos byte _ log

/-- **Whether it succeeds or fails, a walk writes the calls for a whole node**, as far as it
comes. -/
theorem written_value (unsigned : Bool) (o : Options) (refusal : Refusal) (levels : Nat) :
    WritesWhole (value (Builder.callLog unsigned) o refusal levels) := by
  induction levels with
  | zero => exact writesWhole_node o nofun
  | succ levels ih => exact writesWhole_node o fun _ hw => Except.ok.inj hw ▸ ih

end

/-! ## Logs over windows that are cut short -/

/-- Without the bytes `lost` the result is the same, up to these, or it is an error and the log is
the front of what it would have become. -/
inductive Begun (lost : List UInt8) : EStateM.Result DecodeError (State CallLog) α →
    EStateM.Result DecodeError (State CallLog) α → Prop
  | ok {pos : Nat} {tail : List UInt8} (x : α) (log : CallLog) :
      Begun lost (.ok x ⟨facing pos (tail ++ lost), log⟩) (.ok x ⟨facing pos tail, log⟩)
  | error {full : EStateM.Result DecodeError (State CallLog) α} {e : DecodeError}
      {after : State CallLog}
      (hlog : after.built.calls.toList <+: (stateAfter full).built.calls.toList) :
      Begun lost full (.error e after)

theorem Begun.front {lost : List UInt8}
    {full short : EStateM.Result DecodeError (State CallLog) α} (h : Begun lost full short) :
    (stateAfter short).built.calls.toList <+: (stateAfter full).built.calls.toList := by
  cases h with
  | ok x log => exact List.prefix_rfl
  | error hlog => exact hlog

/-- The log only grows, and over a shorter window a front of it is written. -/
structure Begins (m : Walk CallLog α) : Prop where
  grows : ∀ s, s.built.calls.toList <+: (stateAfter (m s)).built.calls.toList
  cut : ∀ pos ahead lost log,
    Begun lost (m ⟨facing pos (ahead ++ lost), log⟩) (m ⟨facing pos ahead, log⟩)

theorem Begins.bind {m : Walk CallLog α} {f : α → Walk CallLog β} (hm : Begins m)
    (hf : ∀ x, Begins (f x)) : Begins (m >>= f) where
  grows := stateAfter_bind
    (R := fun s s' : State CallLog => s.built.calls.toList <+: s'.built.calls.toList)
    List.IsPrefix.trans hm.grows fun x => (hf x).grows
  cut := by
    intro pos ahead lost log
    have h := hm.cut pos ahead lost log
    generalize hfull : m ⟨facing pos (ahead ++ lost), log⟩ = full,
      hshort : m ⟨facing pos ahead, log⟩ = short at h
    cases h with
    | ok x log' =>
      rw [bind_of_eq_ok hfull, bind_of_eq_ok hshort]
      exact (hf x).cut _ _ lost log'
    | error hlog =>
      rw [bind_of_eq_error hshort]
      refine .error ?_
      -- The walk over all bytes may go on, but what has been written stays.
      cases full with
      | error e after =>
        rw [bind_of_eq_error hfull]
        exact hlog
      | ok x after =>
        rw [bind_of_eq_ok hfull]
        exact hlog.trans ((hf x).grows after)

/-- An action that leaves the builder as it is writes nothing, wherever it ends. -/
theorem Untouched.begins {m : Walk CallLog α} (h : Untouched m) (hends : EndsEarly m) :
    Begins m where
  grows := fun s => by simp only [h s, List.prefix_rfl]
  cut := by
    intro pos ahead lost log
    have hfull : (stateAfter (m ⟨facing pos (ahead ++ lost), log⟩)).built = log := h _
    have hshort : (stateAfter (m ⟨facing pos ahead, log⟩)).built = log := h _
    have hcut := hends pos ahead lost log
    generalize m ⟨facing pos (ahead ++ lost), log⟩ = full, m ⟨facing pos ahead, log⟩ = short
      at hfull hshort hcut
    have hsame :
        (stateAfter short).built.calls.toList <+: (stateAfter full).built.calls.toList := by
      simp only [hfull, hshort, List.prefix_rfl]
    cases hcut with
    | ok x log' => exact .ok x log'
    | error e full short => exact .error hsame
    | truncated full short => exact .error hsame

theorem begins_answer (unsigned : Bool) (r : Request Nat) :
    Begins (building ((Builder.callLog unsigned).answer r)) where
  grows := by
    rintro ⟨c, log⟩
    obtain ⟨node, next, call, hanswer, -⟩ := answer_callLog unsigned r log
    simp only [building, hanswer, stateAfter, CallLog.toList_extend]
    exact List.prefix_append ..
  cut := fun _ _ _ _ => .ok _ _

theorem coupling_begins (unsigned : Bool) :
    Coupling Cursor.EndsEarly (fun (m : Walk CallLog _) (_ : Walk CallLog _) => Begins m)
      (Builder.callLog unsigned) (Builder.callLog unsigned) where
  cursor := Cursor.closed_endsEarly
  pure := fun x => Untouched.begins (fun _ => rfl) (closed_endsEarly.pure x)
  bind := Begins.bind
  reading := fun {_} {m} hm => (untouched_reading m).begins (endsEarly_reading hm)
  count := fun unit => (untouched_count unit).begins (endsEarly_count unit)
  answer := begins_answer unsigned

/-- **Over a shorter window a front of the log is written.** -/
theorem begins_value (unsigned : Bool) (o : Options) (refusal : Refusal) (levels : Nat) :
    Begins (value (Builder.callLog unsigned) o refusal levels) :=
  (coupling_begins unsigned).value
    (fun e => Untouched.begins (fun _ => rfl) (closed_endsEarly.throw e)) o
    (Untouched.begins (fun _ => rfl) closed_endsEarly.position) refusal levels

end Walk

/-! ## Whole buffers -/

/-- What a builder has come to when its walk over a region ends. -/
theorem snd_decodeWith {σ ν : Type} {bytes : List UInt8} (hfits : HeaderFits bytes)
    (b : Builder σ ν) (o : Options) (s : σ) :
    (decodeWith b o bytes s).2 =
      (stateAfter (Walk.value b o (o.refusal 0) (o.levels 0)
        ⟨facing headerSize (declaredRegion bytes), s⟩)).built := by
  rw [decodeWith_of_parse (headerParse_eq_ok_iff.2 ⟨hfits, rfl⟩), region_eq_facing hfits,
    Walk.valueAt]
  cases Walk.value b o (o.refusal 0) (o.levels 0) ⟨facing headerSize (declaredRegion bytes), s⟩ <;>
    rfl

section
variable (unsigned : Bool) (o : Options) (bytes : List UInt8)

/-- The calls that are made for a buffer, whether it is decoded or not. -/
def decodeCalls : List Call :=
  (decodeWith (Builder.callLog unsigned) o bytes {}).2.calls.toList

/-- They are the front of the calls for some whole node. -/
theorem exists_whole_of_decodeCalls :
    ∃ calls next, Whole 0 calls next ∧ decodeCalls unsigned o bytes <+: calls := by
  by_cases hfits : HeaderFits bytes
  · have hwritten := Walk.written_value unsigned o (o.refusal 0) (o.levels 0)
      (facing headerSize (declaredRegion bytes)) {}
    rw [decodeCalls, snd_decodeWith hfits]
    generalize Walk.value _ o _ _ _ = result at hwritten
    cases hwritten with
    | ok h c => exact ⟨_, _, h, List.prefix_rfl⟩
    | error h hfront hlog => exact ⟨_, _, h, by rwa [stateAfter, hlog]⟩
  · obtain ⟨calls, next, h⟩ := Walk.exists_whole 0
    refine ⟨calls, next, h, ?_⟩
    cases hparse : Header.parse bytes with
    | ok header => exact absurd (headerParse_eq_ok_iff.1 hparse).1 hfits
    | error e =>
      rw [decodeCalls, decodeWith_of_headerParse hparse]
      exact List.nil_prefix

end

section
variable {unsigned : Bool} {o : Options} {bytes : List UInt8}

/-- If a buffer is decoded, the calls are those for its tree. -/
theorem decodeCalls_of_ok {root : Nat}
    (h : (decodeWith (Builder.callLog unsigned) o bytes {}).1 = .ok root) :
    root = 0 ∧ ∃ t p tail, ValueAt o bytes t p tail ∧ (o.exactSize = true → tail = []) ∧
      decodeCalls unsigned o bytes = t.calls unsigned 0 := by
  obtain ⟨t, p, tail, hat, hexact, hbuild⟩ := decodeWith_eq_ok_iff.1 (Prod.ext h rfl)
  rw [Wire.build_callLog] at hbuild
  obtain ⟨hroot, hlog⟩ := Prod.mk.inj hbuild
  exact ⟨hroot, t, p, tail, hat, hexact, congrArg (fun log => log.calls.toList) hlog⟩

/-- What is left of a buffer when its end is cut off is refused, after a front of its calls. -/
theorem decodeCalls_cutTo {t : Wire} {p : List UInt8} (hat : ValueAt o bytes t p []) {n : Nat}
    (hn : minBufferSize ≤ n) (hlt : n < (declaredSize bytes).toNat) :
    TruncatedWithin n (decodeWith (Builder.callLog unsigned) o (cutTo n bytes) {}).1 ∧
      decodeCalls unsigned o (cutTo n bytes) <+: decodeCalls unsigned o bytes := by
  have hdeclared : (bytes.take (declaredSize bytes).toNat).length = (declaredSize bytes).toNat :=
    List.length_take_of_le hat.header.2
  have hsame : cutTo n bytes = cutTo n (bytes.take (declaredSize bytes).toNat) := by
    rw [cutTo, cutTo, List.take_take, Nat.min_eq_left (Nat.le_of_lt hlt)]
  have hheader : headerSize < n := hn
  obtain ⟨ahead, lost, hbody, hlost, rfl, hcut⟩ :=
    exists_cutTo_eq_frame (Nat.le_of_lt hheader) (hdeclared.symm ▸ hlt)
  have hregion : declaredRegion bytes = ahead ++ lost := hbody
  have hspells := hat.spells
  have hp : p = ahead ++ lost := by rw [← hregion, hat.region, List.append_nil]
  rw [hp] at hspells
  rw [hsame, hcut]
  have hsize := Nat.lt_trans hlt (declaredSize bytes).toNat_lt
  have hahead : 0 < ahead.length := by omega
  refine ⟨?_, ?_⟩
  · have hnest : t.nesting ≤ o.levels 0 := hat.nesting
    exact decodeWith_frame_ahead (Builder.callLog unsigned) hspells hnest hlost hahead hsize {}
  · have hbegins := Walk.begins_value unsigned o (o.refusal 0) (o.levels 0)
    rw [decodeCalls, snd_decodeWith (headerFits_frame hsize hahead), declaredRegion_frame hsize,
      decodeCalls, snd_decodeWith hat.header, hregion]
    exact (hbegins.cut headerSize ahead lost {}).front

end

/-- **What a builder is asked to do is in order, for every buffer.** Whether it is decoded or not,
in the log of a builder that numbers nodes as it makes them:

* Each call is allowed after those before it. A node takes the next number. An element is put into
  the innermost container that is still open; it is younger than that, complete, and in no container
  before. So no container ever receives more elements than were announced.
* If the buffer is decoded, the root is the first node, every other node has been put into a
  container once, every container has received just as many elements as were announced, and the
  calls are those for the tree that the bytes spell, a container before its members and each of
  these before it is put in.
* If sizes have to be exact, and a decoded buffer is cut and framed anew, it is refused as
  truncated, and its calls are the front of those for the whole buffer. -/
theorem decodeWith_callLog (unsigned : Bool) (o : Options) (bytes : List UInt8) :
    let result := (decodeWith (Builder.callLog unsigned) o bytes {}).1
    let calls := decodeCalls unsigned o bytes
    (∀ before call rest, calls = before ++ call :: rest → Allowed before call) ∧
    (∀ c n, Announces calls c n → received calls c ≤ n) ∧
    (∀ root, result = .ok root →
      root = 0 ∧ attachments calls 0 = 0 ∧
      (∀ e, 0 < e → e < made calls → attachments calls e = 1) ∧
      (∀ c n, Announces calls c n → received calls c = n) ∧
      ∃ t p tail, ValueAt o bytes t p tail ∧ (o.exactSize = true → tail = []) ∧
        calls = t.calls unsigned 0) ∧
    (o.exactSize = true → (∃ root, result = .ok root) →
      ∀ n, minBufferSize ≤ n → n < (declaredSize bytes).toNat →
        TruncatedWithin n (decodeWith (Builder.callLog unsigned) o (cutTo n bytes) {}).1 ∧
        decodeCalls unsigned o (cutTo n bytes) <+: calls) := by
  intro result calls
  obtain ⟨whole, next, hwhole, rest, hrest⟩ := exists_whole_of_decodeCalls unsigned o bytes
  have hrest : calls ++ rest = whole := hrest
  have hfollows := hwhole.follows reaches_nil
  have hsummary := hwhole.summary
  refine ⟨fun before call after hsplit => ?_, fun c n hc => ?_, fun root hroot => ?_,
    fun hexact hok n hn hlt => ?_⟩
  · rw [← hrest, hsplit, List.append_assoc, List.cons_append] at hfollows
    exact hfollows.allowed
  · rw [← hrest] at hsummary
    have hfull := (hsummary.announces c n (announces_append.2 (.inl hc))).2.2
    rw [received_append] at hfull
    omega
  · obtain ⟨hzero, t, p, tail, hat, hexact, (hcalls : calls = _)⟩ := decodeCalls_of_ok hroot
    have hsum := (Wire.whole_calls unsigned t 0).summary
    rw [← hcalls] at hsum
    refine ⟨hzero, ?_, fun e hlow hhigh => ?_, fun c n hc => (hsum.announces c n hc).2.2,
      t, p, tail, hat, hexact, hcalls⟩
    · refine attachments_eq_zero fun c he => ?_
      have := hsum.attaches c 0 he
      omega
    · refine hsum.once e hlow ?_
      have := hsum.made
      omega
  · obtain ⟨root, hroot⟩ := hok
    obtain ⟨-, t, p, tail, hat, htail, -⟩ := decodeCalls_of_ok hroot
    obtain rfl := htail hexact
    exact decodeCalls_cutTo hat hn hlt

/-- An array in an array, and an object behind it. Without its last byte, the object is missing, and
all calls before it are as they were. -/
theorem decodeWith_callLog_nested :
    let bytes : List UInt8 := [12, 0, 0, 0, 0x0e, 2, 0x0e, 1, 0x02, 7, 0x0f, 0]
    let o : Options := { exactSize := true }
    decodeCalls true o bytes =
      [.array 0 2, .array 1 1, .integer 2 7, .append 1 2, .append 0 1, .object 3 0, .append 0 3] ∧
    (decodeWith (Builder.callLog true) o (cutTo 11 bytes) {}).1 = .error (.truncated 11) ∧
    decodeCalls true o (cutTo 11 bytes) =
      [.array 0 2, .array 1 1, .integer 2 7, .append 1 2, .append 0 1] ∧
    decodeCalls true o (cutTo 11 bytes) <+: decodeCalls true o bytes := by
  intro bytes o
  have hok : (decodeWith (Builder.callLog true) o bytes {}).1 = .ok 0 := rfl
  obtain ⟨-, -, -, hcut⟩ := decodeWith_callLog true o bytes
  have hprefix := (hcut rfl ⟨0, hok⟩ 11 (by decide) (by decide)).2
  exact ⟨rfl, rfl, rfl, hprefix⟩

end WireTree
