import Mathlib.Data.List.Chain
import WireTree.Proofs.WalkTraces

/-!
# Work is bounded by bytes

What a walk makes of a buffer, and how much of it at once, against the bytes that are there.

* `Request.made` and `Request.attached` are the numbers of requests to make a node and to put one
  into a container.
* `Request.hand st rs` is what is in hand after requests that start with `st` in hand: for each node
  that was made and has not been put into a container, the latest first, whether it is a container.
  A container that is still open is in hand.
* `Request.peak st rs` is the largest number of containers that are in hand at once meanwhile.
* `RoomFor bytes stop p unit n`: at `p` stands the tag of a container, behind it the number `n`, and
  behind that there is room for as many members.
* `Next bytes stop event event'`: the second event may come directly behind the first.
* `noRoomError refusal levels p st`: the error for a container whose members have no room.

Each fact is an induction on the rules of a visit, with one for the members beside it.

Results:
* `Visit.made_le`, `Visit.attached_lt`: nodes against bytes, and what is put away against nodes.
* `Visit.peak_le`: containers in hand against the levels that are left.
* `Visit.roomFor`, `Visit.refused_of_excessive`: what has happened where a container is made, and
  what happens where it is not.
* **`work_bounded`**: all of it for whole buffers.
-/

namespace WireTree

variable {σ ν : Type}

/-! ## What requests add up to -/

namespace Request

/-- The number of nodes that are made. -/
def made (rs : List (Request ν)) : Nat :=
  rs.countP fun r => !r.attaches

/-- The number of nodes that are put into containers. -/
def attached (rs : List (Request ν)) : Nat :=
  rs.countP attaches

/-- What is in hand after one more request: of each node whether it is a container. -/
def hold (st : List Bool) (r : Request ν) : List Bool :=
  if r.attaches then st.tail else r.announced?.isSome :: st

/-- What is in hand after some requests. -/
def hand (st : List Bool) (rs : List (Request ν)) : List Bool :=
  rs.foldl hold st

/-- The number of containers in hand. -/
def containers (st : List Bool) : Nat :=
  st.count true

/-- The largest number of containers in hand at once. -/
def peak (st : List Bool) : List (Request ν) → Nat
  | [] => containers st
  | r :: rs => max (containers st) (peak (hold st r) rs)

section
variable {r : Request ν} {rs rs' : List (Request ν)} {st : List Bool}

@[simp]
theorem made_append : made (rs ++ rs') = made rs + made rs' :=
  List.countP_append

@[simp]
theorem attached_append : attached (rs ++ rs') = attached rs + attached rs' :=
  List.countP_append

theorem made_cons_of_attaches (h : r.attaches = true) : made (r :: rs) = made rs := by
  rw [made, List.countP_cons_of_neg (by simp [h]), made]

theorem attached_cons_of_attaches (h : r.attaches = true) :
    attached (r :: rs) = attached rs + 1 :=
  List.countP_cons_of_pos h

theorem made_cons (h : r.attaches = false) : made (r :: rs) = made rs + 1 :=
  List.countP_cons_of_pos (by simp [h])

theorem attached_cons (h : r.attaches = false) : attached (r :: rs) = attached rs := by
  rw [attached, List.countP_cons_of_neg (by simp [h]), attached]

theorem hand_append : hand st (rs ++ rs') = hand (hand st rs) rs' :=
  List.foldl_append

theorem hand_cons : hand st (r :: rs) = hand (hold st r) rs :=
  rfl

theorem containers_cons_true : containers (true :: st) = containers st + 1 :=
  List.count_cons_self

theorem containers_cons_false : containers (false :: st) = containers st :=
  rfl

theorem hold_of_attaches (h : r.attaches = true) : hold st r = st.tail :=
  if_pos h

theorem hold_of_isScalar (h : r.isScalar = true) : hold st r = false :: st := by
  rw [hold, attaches_of_isScalar h, announced?_of_isScalar h]
  rfl

theorem hold_of_announced? {unit n : Nat} (h : r.announced? = some (unit, n)) :
    hold st r = true :: st := by
  rw [hold, attaches_of_announced? h, h]
  rfl

theorem containers_le_peak : containers st ≤ peak st rs := by
  cases rs with
  | nil => exact Nat.le_refl _
  | cons r rs => exact Nat.le_max_left ..

theorem containers_hand_le_peak : containers (hand st rs) ≤ peak st rs := by
  induction rs generalizing st with
  | nil => exact Nat.le_refl _
  | cons r rs ih => exact Nat.le_trans ih (Nat.le_max_right ..)

theorem peak_append : peak st (rs ++ rs') = max (peak st rs) (peak (hand st rs) rs') := by
  induction rs generalizing st with
  | nil => exact (Nat.max_eq_right containers_le_peak).symm
  | cons r rs ih =>
    rw [List.cons_append, peak, peak, ih, hand_cons, Nat.max_assoc]

/-- No more containers are in hand than there were and than nodes have been made. -/
theorem peak_le_made : peak st rs ≤ containers st + made rs := by
  induction rs generalizing st with
  | nil => exact Nat.le_refl _
  | cons r rs ih =>
    have hrest := @ih (hold st r)
    rw [peak]
    cases h : r.attaches with
    | true =>
      have htail : containers st.tail ≤ containers st := (List.tail_sublist st).count_le true
      rw [made_cons_of_attaches h]
      rw [hold_of_attaches h] at hrest ⊢
      omega
    | false =>
      have hmore : containers (hold st r) ≤ containers st + 1 := by
        rw [hold, h, if_neg Bool.false_ne_true, containers, List.count_cons]
        exact Nat.add_le_add_left (by split <;> omega) _
      rw [made_cons h]
      omega

end

end Request

namespace Event

@[simp]
theorem requests_nil : requests ([] : List (Event ν)) = [] :=
  rfl

@[simp]
theorem requests_came (p : Nat) (events : List (Event ν)) :
    requests (.came p :: events) = requests events :=
  rfl

@[simp]
theorem requests_asked (r : Request ν) (events : List (Event ν)) :
    requests (.asked r :: events) = r :: requests events :=
  rfl

@[simp]
theorem requests_append (events events' : List (Event ν)) :
    requests (events ++ events') = requests events ++ requests events' :=
  List.filterMap_append

end Event

open Request Event

section
variable {refusal : Refusal} {bytes : List UInt8} {stop : Nat}

/-! ## Nodes -/

mutual

/-- For each node that is made, the walk moves on by a byte at least. -/
theorem Visit.made_le {levels pos pos' : Nat} {events : List (Event ν)}
    {fault : Option DecodeError} :
    Visit refusal bytes stop levels pos events fault pos' →
      pos + made (Event.requests events) ≤ pos'
  | .scalar hr _ hlt => by
    rw [requests_came, requests_asked, made_cons (attaches_of_isScalar hr)]
    exact hlt
  | .refused hle _ => hle
  | .container hr _ _ _ hs => by
    have hmembers := hs.made_le
    rw [requests_came, requests_asked, made_cons (attaches_of_announced? hr)]
    omega

theorem Members.made_le {levels n pos pos' : Nat} {events : List (Event ν)}
    {fault : Option DecodeError} :
    Members refusal bytes stop levels n pos events fault pos' →
      pos + made (Event.requests events) ≤ pos'
  | .nil => Nat.le_refl _
  | .lost hle => hle
  | .broken hle h => by
    have hvalue := h.made_le
    omega
  | .cons hle h hr hs => by
    have hvalue := h.made_le
    have hmembers := hs.made_le
    rw [requests_append, made_append, requests_asked, made_cons_of_attaches hr]
    omega

end

mutual

/-- Of the nodes that are made, one at least is not put into a container. -/
theorem Visit.attached_lt {levels pos pos' : Nat} {events : List (Event ν)}
    {fault : Option DecodeError} :
    Visit refusal bytes stop levels pos events fault pos' →
      attached (Event.requests events) < made (Event.requests events) ∨
        fault ≠ none ∧ Event.requests events = []
  | .scalar hr _ _ => by
    have hnew := attaches_of_isScalar hr
    rw [requests_came, requests_asked, made_cons hnew, attached_cons hnew]
    exact .inl Nat.zero_lt_one
  | .refused _ _ => .inr ⟨Option.some_ne_none _, rfl⟩
  | .container hr _ _ _ hs => by
    have hnew := attaches_of_announced? hr
    rw [requests_came, requests_asked, made_cons hnew, attached_cons hnew]
    exact .inl (Nat.lt_succ_of_le hs.attached_le)

/-- No more nodes are put away than are made for the members. -/
theorem Members.attached_le {levels n pos pos' : Nat} {events : List (Event ν)}
    {fault : Option DecodeError} :
    Members refusal bytes stop levels n pos events fault pos' →
      attached (Event.requests events) ≤ made (Event.requests events)
  | .nil => Nat.le_refl _
  | .lost _ => Nat.le_refl _
  | .broken _ h => by
    obtain hlt | ⟨-, hnone⟩ := h.attached_lt
    · exact Nat.le_of_lt hlt
    · rw [hnone]
      exact Nat.le_refl _
  | .cons _ h hr hs => by
    obtain hlt | ⟨hfault, -⟩ := h.attached_lt
    · have hmembers := hs.attached_le
      rw [requests_append, made_append, attached_append, requests_asked,
        made_cons_of_attaches hr, attached_cons_of_attaches hr]
      omega
    · exact absurd rfl hfault

end

/-! ## Containers in hand -/

-- That nothing has failed is a hypothesis in what follows: with `none` in the place of the error,
-- the recursion on the rules takes far longer to compile.
mutual

/-- A value that has been read is in hand as one node. -/
theorem Visit.hand_eq {levels pos pos' : Nat} {events : List (Event ν)}
    {fault : Option DecodeError} (hfault : fault = none) (st : List Bool) :
    Visit refusal bytes stop levels pos events fault pos' →
      ∃ c, hand st (Event.requests events) = c :: st
  | .scalar hr _ _ => by
    rw [requests_came, requests_asked, hand_cons, hold_of_isScalar hr]
    exact ⟨false, rfl⟩
  | .refused _ _ => by cases hfault
  | .container hr _ _ _ hs => by
    rw [requests_came, requests_asked, hand_cons, hold_of_announced? hr]
    exact ⟨true, hs.hand_eq hfault true st⟩

/-- Members that have been read are put away. -/
theorem Members.hand_eq {levels n pos pos' : Nat} {events : List (Event ν)}
    {fault : Option DecodeError} (hfault : fault = none) (c : Bool) (st : List Bool) :
    Members refusal bytes stop levels n pos events fault pos' →
      hand (c :: st) (Event.requests events) = c :: st
  | .nil => rfl
  | .lost _ => by cases hfault
  | .broken _ _ => by cases hfault
  | .cons _ h hr hs => by
    obtain ⟨c', hvalue⟩ := h.hand_eq rfl (c :: st)
    rw [requests_append, requests_asked, hand_append, hvalue, hand_cons, hold_of_attaches hr]
    exact hs.hand_eq hfault c st

end

mutual

/-- Beyond the containers that are in hand, there are never more than levels are left. -/
theorem Visit.peak_le {levels pos pos' : Nat} {events : List (Event ν)}
    {fault : Option DecodeError} (st : List Bool) :
    Visit refusal bytes stop levels pos events fault pos' →
      peak st (Event.requests events) ≤ containers st + levels
  | .scalar hr _ _ => by
    rw [requests_came, requests_asked, requests_nil, peak, peak, hold_of_isScalar hr,
      containers_cons_false, Nat.max_self]
    exact Nat.le_add_right ..
  | .refused _ _ => Nat.le_add_right ..
  | .container hr _ _ _ hs => by
    have hmembers := hs.peak_le true st
    rw [containers_cons_true] at hmembers
    rw [requests_came, requests_asked, peak, hold_of_announced? hr]
    omega

theorem Members.peak_le {levels n pos pos' : Nat} {events : List (Event ν)}
    {fault : Option DecodeError} (c : Bool) (st : List Bool) :
    Members refusal bytes stop levels n pos events fault pos' →
      peak (c :: st) (Event.requests events) ≤ containers (c :: st) + levels
  | .nil => Nat.le_add_right ..
  | .lost _ => Nat.le_add_right ..
  | .broken _ h => h.peak_le (c :: st)
  | .cons _ h hr hs => by
    -- The value is in hand too until it is put away, which the peak of its own requests covers.
    obtain ⟨c', hhand⟩ := h.hand_eq rfl (c :: st)
    have hvalue := h.peak_le (c :: st)
    have hmembers := hs.peak_le c st
    have hfull := containers_hand_le_peak.trans hvalue
    rw [hhand] at hfull
    rw [requests_append, requests_asked, peak_append, hhand, peak, hold_of_attaches hr,
      List.tail_cons]
    omega

end

/-! ## Before a container is made -/

/-- At `p` stands the tag of a container, behind it the number `n`, and behind that there is room
for as many members. -/
def RoomFor (bytes : List UInt8) (stop p unit n : Nat) : Prop :=
  MembersAt bytes p unit ∧ ∃ (count : UInt64) (k : Nat), count.toNat = n ∧
    Varint.Form count ((bytes.drop (p + 1)).take k) ∧ p + 1 + k + n * unit ≤ stop

/-- Which event may come directly behind which. -/
inductive Next (bytes : List UInt8) (stop : Nat) : Event ν → Event ν → Prop
  | scalar {p : Nat} {r : Request ν} (hr : r.isScalar = true)
      (hflat : ∀ unit, ¬MembersAt bytes p unit) : Next bytes stop (.came p) (.asked r)
  | container {p unit n : Nat} {r : Request ν} (hr : r.announced? = some (unit, n))
      (h : RoomFor bytes stop p unit n) : Next bytes stop (.came p) (.asked r)
  | value {r : Request ν} {p : Nat} : Next bytes stop (.asked r) (.came p)
  | put {r r' : Request ν} (hr : r'.attaches = true) : Next bytes stop (.asked r) (.asked r')

/-- The tag of a container settles the least size of its members. -/
theorem MembersAt.unique {p unit unit' : Nat} (h : MembersAt bytes p unit)
    (h' : MembersAt bytes p unit') : unit = unit' := by
  obtain ⟨hbyte, rfl⟩ | ⟨hbyte, rfl⟩ := h <;> obtain ⟨hbyte', rfl⟩ | ⟨hbyte', rfl⟩ := h'
  · rfl
  · cases hbyte.symm.trans hbyte'
  · cases hbyte.symm.trans hbyte'
  · rfl

/-- A number that is too large for the members leaves no room for them. -/
theorem RoomFor.not_excessive {p unit n unit' : Nat} (hstop : stop ≤ bytes.length)
    (h : RoomFor bytes stop p unit n) (htag : MembersAt bytes p unit') :
    ¬Excessive bytes stop (p + 1) unit' := by
  rintro ⟨m, j, hm, hfits, hlarge⟩
  obtain ⟨htag', count, k, rfl, hcount, hroom⟩ := h
  obtain rfl := htag.unique htag'
  have hsplit := (List.take_append_drop j (bytes.drop (p + 1))).trans
    (List.take_append_drop k (bytes.drop (p + 1))).symm
  obtain ⟨rfl, hlen⟩ := hm.unique hcount hsplit
  rw [List.length_take, List.length_take, List.length_drop] at hlen
  omega

theorem Next.roomFor {event : Event ν} {r : Request ν} {unit n : Nat}
    (h : Next bytes stop event (.asked r)) (hr : r.announced? = some (unit, n)) :
    ∃ p, event = .came p ∧ RoomFor bytes stop p unit n := by
  cases h with
  | scalar hscalar => cases hr.symm.trans (announced?_of_isScalar hscalar)
  | @container p _ _ _ hr' h =>
    cases hr.symm.trans hr'
    exact ⟨p, rfl, h⟩
  | put hput => cases hr.symm.trans (announced?_of_attaches hput)

theorem Next.not_excessive {event : Event ν} {p unit : Nat} (hstop : stop ≤ bytes.length)
    (h : Next bytes stop (.came p) event) (htag : MembersAt bytes p unit) :
    ¬Excessive bytes stop (p + 1) unit := by
  cases h with
  | scalar _ hflat => exact absurd htag (hflat unit)
  | container _ h => exact h.not_excessive hstop htag

theorem Visit.head?_eq {levels pos pos' : Nat} {events : List (Event ν)}
    {fault : Option DecodeError} (h : Visit refusal bytes stop levels pos events fault pos') :
    events.head? = some (.came pos) := by
  cases h <;> rfl

/-- The events of members are none, or begin where the value of the first should start. -/
theorem Members.next {levels n pos pos' : Nat} {events : List (Event ν)}
    {fault : Option DecodeError} (h : Members refusal bytes stop levels n pos events fault pos')
    (r : Request ν) : ∀ event ∈ events.head?, Next bytes stop (.asked r) event := by
  intro event hevent
  cases h with
  | nil => cases hevent
  | lost => cases hevent
  | broken _ h =>
    cases hevent.symm.trans h.head?_eq
    exact .value
  | cons _ h =>
    rw [List.head?_append, h.head?_eq] at hevent
    cases hevent
    exact .value

mutual

/-- The last event of a value that has been read, or of its members, is a request. -/
theorem Visit.getLast?_eq {levels pos pos' : Nat} {events : List (Event ν)}
    {fault : Option DecodeError} (hfault : fault = none) :
    Visit refusal bytes stop levels pos events fault pos' → ∃ r, events.getLast? = some (.asked r)
  | .scalar _ _ _ => ⟨_, rfl⟩
  | .refused _ _ => by cases hfault
  | .container _ _ _ _ hs => by
    obtain ⟨r', h⟩ := hs.getLast?_eq hfault _
    exact ⟨r', by rwa [List.getLast?_cons_cons]⟩

theorem Members.getLast?_eq {levels n pos pos' : Nat} {events : List (Event ν)}
    {fault : Option DecodeError} (hfault : fault = none) (r : Request ν) :
    Members refusal bytes stop levels n pos events fault pos' →
      ∃ r', (.asked r :: events).getLast? = some (.asked r')
  | .nil => ⟨r, rfl⟩
  | .lost _ => by cases hfault
  | .broken _ _ => by cases hfault
  | .cons _ _ _ hs => by
    obtain ⟨r', h⟩ := hs.getLast?_eq hfault _
    exact ⟨r', by rw [← List.cons_append, List.getLast?_append, h, Option.some_or]⟩

end

mutual

/-- Each event may come behind the one before it. -/
theorem Visit.chain {levels pos pos' : Nat} {events : List (Event ν)}
    {fault : Option DecodeError} :
    Visit refusal bytes stop levels pos events fault pos' → events.IsChain (Next bytes stop)
  | .scalar hr hflat _ => List.isChain_pair.2 (.scalar hr hflat)
  | .refused _ _ => .singleton _
  | .container hr htag hform hroom hs =>
    .cons_cons (.container hr ⟨htag, _, _, rfl, hform, hroom⟩)
      (List.isChain_cons.2 ⟨hs.next _, hs.chain⟩)

theorem Members.chain {levels n pos pos' : Nat} {events : List (Event ν)}
    {fault : Option DecodeError} :
    Members refusal bytes stop levels n pos events fault pos' → events.IsChain (Next bytes stop)
  | .nil => .nil
  | .lost _ => .nil
  | .broken _ h => h.chain
  | .cons _ h hr hs => by
    refine h.chain.append (List.isChain_cons.2 ⟨hs.next _, hs.chain⟩) fun x hx y hy => ?_
    obtain ⟨r', hlast⟩ := h.getLast?_eq rfl
    cases hx.symm.trans hlast
    cases hy
    exact .put hr

end

/-! ## Containers that are refused -/

/-- The error for a container at `p` whose members have no room: what is in hand settles whether it
would be nested too deeply. -/
def noRoomError (refusal : Refusal) (levels p : Nat) (st : List Bool) : DecodeError :=
  if containers st < levels then .truncated (p + 1) else refusal.error p

theorem getLast?_of_asked {r : Request ν} {events : List (Event ν)} {p : Nat}
    (h : (.asked r :: events).getLast? = some (.came p)) : events.getLast? = some (.came p) := by
  cases events with
  | nil => cases h
  | cons => rwa [List.getLast?_cons_cons] at h

mutual

/-- If a container is the last that the walk comes to, and its members have no room, it is
refused. -/
theorem Visit.fault_eq {levels pos pos' p unit : Nat} {events : List (Event ν)}
    {fault : Option DecodeError} (hlast : events.getLast? = some (.came p))
    (htag : MembersAt bytes p unit) (hlarge : Excessive bytes stop (p + 1) unit)
    (st : List Bool) :
    Visit refusal bytes stop levels pos events fault pos' →
      fault = some
        (noRoomError refusal (containers st + levels) p (hand st (Event.requests events)))
  | .scalar _ _ _ => by cases hlast
  | .refused _ herror => by
    cases hlast
    have hiff : containers st < containers st + levels ↔ 0 < levels := Nat.lt_add_right_iff_pos
    rw [herror unit htag hlarge, requests_came, requests_nil, noRoomError]
    simp only [hand, List.foldl_nil, hiff]
  | .container hr _ _ _ hs => by
    rw [List.getLast?_cons_cons] at hlast
    have hmembers := hs.fault_eq (getLast?_of_asked hlast) htag hlarge true st
    rw [containers_cons_true, Nat.add_right_comm] at hmembers
    rwa [requests_came, requests_asked, hand_cons, hold_of_announced? hr, ← Nat.add_assoc]

/-- The same for the members of a container. -/
theorem Members.fault_eq {levels n pos pos' p unit : Nat} {events : List (Event ν)}
    {fault : Option DecodeError} (hlast : events.getLast? = some (.came p))
    (htag : MembersAt bytes p unit) (hlarge : Excessive bytes stop (p + 1) unit)
    (c : Bool) (st : List Bool) :
    Members refusal bytes stop levels n pos events fault pos' →
      fault = some (noRoomError refusal (containers (c :: st) + levels) p
        (hand (c :: st) (Event.requests events)))
  | .nil => by cases hlast
  | .lost _ => by cases hlast
  | .broken _ h => h.fault_eq hlast htag hlarge (c :: st)
  | .cons _ h hr hs => by
    -- Once the value is put away, there is in hand what was there before it.
    obtain ⟨c', hhand⟩ := h.hand_eq rfl (c :: st)
    rw [List.getLast?_append_cons] at hlast
    have hmembers := hs.fault_eq (getLast?_of_asked hlast) htag hlarge c st
    rwa [requests_append, requests_asked, hand_append, hhand, hand_cons, hold_of_attaches hr,
      List.tail_cons]

end

/-! ## Places in a trace -/

/-- Wherever a container is made, the walk has just come to it, and its members have room. -/
theorem Visit.roomFor {levels pos pos' unit n : Nat} {before after : List (Event ν)}
    {r : Request ν} {fault : Option DecodeError}
    (h : Visit refusal bytes stop levels pos (before ++ .asked r :: after) fault pos')
    (hr : r.announced? = some (unit, n)) :
    ∃ front p, before = front ++ [.came p] ∧ RoomFor bytes stop p unit n := by
  obtain rfl | ⟨front, event, rfl⟩ := before.eq_nil_or_concat'
  · cases h.head?_eq
  · have hchain := h.chain
    rw [List.append_assoc, List.singleton_append, List.isChain_append_cons_cons] at hchain
    obtain ⟨p, rfl, hroom⟩ := hchain.2.1.roomFor hr
    exact ⟨front, p, rfl, hroom⟩

/-- Wherever the walk comes to a container whose members have no room, it ends. -/
theorem Visit.refused_of_excessive {levels pos pos' p unit : Nat} {before after : List (Event ν)}
    {fault : Option DecodeError} (hstop : stop ≤ bytes.length)
    (h : Visit refusal bytes stop levels pos (before ++ .came p :: after) fault pos')
    (htag : MembersAt bytes p unit) (hlarge : Excessive bytes stop (p + 1) unit) :
    after = [] ∧ fault = some (noRoomError refusal levels p (hand [] (Event.requests before))) := by
  obtain rfl : after = [] := by
    cases after with
    | nil => rfl
    | cons event rest =>
      have hnext := (List.isChain_append_cons_cons.1 h.chain).2.1
      exact absurd hlarge (hnext.not_excessive hstop htag)
  have hfault := h.fault_eq List.getLast?_concat htag hlarge []
  rw [requests_append, requests_came, requests_nil, List.append_nil] at hfault
  have hnone : containers [] + levels = levels := Nat.zero_add levels
  exact ⟨rfl, hnone ▸ hfault⟩

end

/-! ## Whole buffers -/

/-- The number of bytes behind the header that decoding has left behind in the end. -/
def consumed (b : Builder σ ν) (o : Options) (header : Header) (bytes : List UInt8) (s : σ) : Nat :=
  (stateAfter (Walk.root b o header ⟨header.region bytes, s⟩)).cursor.pos - headerSize

/-- **Work is bounded by the bytes that are there.** With any builder and any options, whether
decoding succeeds or fails:

* What is asked of the builder can be recorded without making a difference, and is what the trace
  tells.
* No more nodes are made than bytes are consumed, and fewer are put into containers if any are made.
* No more containers are in hand at once than may nest.
* Where a container is made, the walk has just come to its tag, and there is room for its members
  behind the number that stands there.
* Where the walk comes to the tag of a container and the number behind it is too large, nothing more
  is asked, and decoding fails at the number. If as many containers are open as may nest, it fails
  at the tag already, and the number is not read. -/
theorem work_bounded {bytes : List UInt8} {header : Header}
    (hparse : Header.parse bytes = .ok header) (b : Builder σ ν) (o : Options) (s : σ) :
    decodeWith (b.recording id) o bytes (s, []) =
      ((decodeWith b o bytes s).1, (decodeWith b o bytes s).2, requests b o bytes s) ∧
    requests b o bytes s = Event.requests (trace b o bytes s) ∧
    made (requests b o bytes s) ≤ consumed b o header bytes s ∧
    consumed b o header bytes s ≤ header.declared.toNat - headerSize ∧
    (0 < made (requests b o bytes s) →
      attached (requests b o bytes s) < made (requests b o bytes s)) ∧
    peak [] (requests b o bytes s) ≤ o.maxDepth.toNat ∧
    (∀ before r after unit n, trace b o bytes s = before ++ .asked r :: after →
      r.announced? = some (unit, n) →
      ∃ front p, before = front ++ [.came p] ∧ RoomFor bytes header.declared.toNat p unit n) ∧
    ∀ before p after unit, trace b o bytes s = before ++ .came p :: after →
      MembersAt bytes p unit → Excessive bytes header.declared.toNat (p + 1) unit →
      after = [] ∧ (decodeWith b o bytes s).1 =
        .error (if containers (hand [] (Event.requests before)) < o.maxDepth.toNat
          then .truncated (p + 1) else .tooDeep o.maxDepth p) := by
  obtain ⟨hresult, hbuilt⟩ := decodeWith_recording b id o bytes s []
  obtain ⟨fault, pos', hvisit, hle, hpos, hfault⟩ := visit_of_trace hparse b o s
  have hasked := requests_eq hparse b o s
  have hmade : made (requests b o bytes s) ≤ consumed b o header bytes s := by
    have hall := hvisit.made_le
    rw [consumed, hpos, hasked]
    omega
  have hconsumed : consumed b o header bytes s ≤ header.declared.toNat - headerSize := by
    rw [consumed, hpos]
    omega
  have hdeclared := header.declared.toNat_lt
  refine ⟨Prod.ext hresult (Prod.ext hbuilt rfl), hasked, hmade, hconsumed, fun hsome => ?_, ?_,
    fun before r after unit n hsplit hr => ?_, fun before p after unit hsplit htag hlarge => ?_⟩
  · obtain hlt | ⟨-, hnone⟩ := hvisit.attached_lt
    · rwa [hasked]
    · rw [hasked, hnone] at hsome
      exact absurd hsome (Nat.lt_irrefl 0)
  · have hpeak := hvisit.peak_le []
    rw [← hasked] at hpeak
    exact hpeak.trans_eq (Nat.zero_add _)
  · rw [hsplit] at hvisit
    exact hvisit.roomFor hr
  · rw [hsplit] at hvisit
    obtain ⟨hfits, rfl⟩ := headerParse_eq_ok_iff.1 hparse
    obtain ⟨rfl, hrefused⟩ := hvisit.refused_of_excessive hfits.2 htag hlarge
    have hfew : containers (hand [] (Event.requests before)) ≤
        0 + made (Event.requests before) := containers_hand_le_peak.trans peak_le_made
    rw [hasked, hsplit, requests_append, made_append] at hmade
    refine ⟨rfl, ?_⟩
    rw [hfault _ hrefused, noRoomError, Options.levels_zero]
    split
    · rfl
    · -- There are fewer containers than bytes, so the limit is far from the largest word.
      have hlimit : o.maxDepth ≠ 0xffff_ffff_ffff_ffff :=
        Options.toNat_lt_largest_iff.1 (by omega)
      rw [Options.refusal_zero hlimit, Refusal.error]

/-- An array of an array of five elements for which no byte is left: only the outer one is made, and
the error points at the inner count. -/
theorem work_bounded_nested :
    let bytes : List UInt8 := [8, 0, 0, 0, 0x0e, 1, 0x0e, 5]
    Header.parse bytes = .ok ⟨8⟩ ∧ requests .skip {} bytes () = [.array 1] ∧
      made (requests .skip {} bytes ()) ≤ consumed .skip {} ⟨8⟩ bytes () ∧
      (decodeWith .skip {} bytes ()).1 = .error (.truncated 7) := by
  intro bytes
  have hparse : Header.parse bytes = .ok ⟨8⟩ := rfl
  have htrace : trace .skip {} bytes () = [.came 4, .asked (.array 1)] ++ [.came 6] := rfl
  have htag : MembersAt bytes 6 1 := .inl ⟨rfl, rfl⟩
  have hform : Varint.Form (UInt8.toUInt64 5) [5] := .direct (by decide)
  have hlarge : Excessive bytes 8 7 1 := ⟨5, 1, hform, by decide, by decide⟩
  obtain ⟨-, hasked, hmade, -, -, -, -, hrefused⟩ := work_bounded hparse .skip {} ()
  obtain ⟨-, herror⟩ := hrefused _ 6 [] 1 htrace htag hlarge
  exact ⟨hparse, hasked, hmade, herror⟩

end WireTree
