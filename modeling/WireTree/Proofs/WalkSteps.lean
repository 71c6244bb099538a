import WireTree.Proofs.WalkActions
import WireTree.Proofs.WalkInduction

/-!
# The steps of a walk

What a walk does at a tag, and how two walks are compared step by step.

* `Request` is what a walk may ask of a builder, and `Builder.answer` does as asked.
* `Walk.request tag` reads the payload of a kind without other values in it, as the request that is
  made of it. It has nothing done yet.
* `Walk.afterTag` is what a walk does behind a tag byte.
* `Walk.ReadCoupling P` and `Walk.Coupling P`: composition of actions keeps the relation `P` between
  two walks, the actions that read are related to themselves, and in a `Coupling` the answers of two
  builders to one request are related as well.

Results:
* **`Walk.node_eq`**: a value is read by its tag byte and then by what is done behind it.
* `Coupling.told`, `Coupling.array`, `Coupling.object`: what is done behind a tag is related if what
  is done inside of it is.
* **`Coupling.value`**: so reading a value is related to itself.
-/

namespace WireTree

variable {σ σ₁ σ₂ ν α β : Type}

/-! ## Requests -/

/-- What a walk may ask of a builder. -/
inductive Request (ν : Type) where
  | null
  | bool (b : Bool)
  | integer (n : Int64)
  | uinteger (n : UInt64)
  | real (x : Binary64)
  | text (s : String)
  | bytes (bs : List UInt8)
  | array (capacity : Nat)
  | append (array element : ν)
  | object (capacity : Nat)
  | set (object : ν) (key : String) (value : ν)

namespace Builder

/-- Does what is asked. -/
def answer (b : Builder σ ν) : Request ν → σ → ν × σ
  | .null => b.null
  | .bool x => b.bool x
  | .integer n => b.integer n
  | .uinteger n => b.uinteger n
  | .real x => b.real x
  | .text s => b.text s
  | .bytes bs => b.bytes bs
  | .array capacity => b.array capacity
  | .append array element => b.append array element
  | .object capacity => b.object capacity
  | .set object key value => b.set object key value

/-- The builder that answers as given. -/
def ofAnswer (answer : Request ν → σ → ν × σ) : Builder σ ν where
  null := answer .null
  bool := fun x => answer (.bool x)
  integer := fun n => answer (.integer n)
  uinteger := fun n => answer (.uinteger n)
  real := fun x => answer (.real x)
  text := fun s => answer (.text s)
  bytes := fun bs => answer (.bytes bs)
  array := fun capacity => answer (.array capacity)
  append := fun array element => answer (.append array element)
  object := fun capacity => answer (.object capacity)
  set := fun object key value => answer (.set object key value)

@[simp]
theorem answer_ofAnswer (f : Request ν → σ → ν × σ) (r : Request ν) :
    (ofAnswer f).answer r = f r := by
  cases r <;> rfl

end Builder

/-! ## Behind a tag byte -/

namespace Cursor

/-- A byte is read if there is one. -/
theorem byte_eq (c : Cursor) :
    byte c =
      match c.rest with
      | [] => .error .endOfBuffer c
      | b :: _ => .ok b (c.advance 1) := by
  have hlen := c.length_rest
  cases hrest : c.rest with
  | nil =>
    have hstop : c.stop < c.pos + 1 := by
      rw [hrest, List.length_nil] at hlen
      omega
    exact bind_of_eq_error (bind_of_eq_error (take_of_lt hstop) _) _
  | cons b rest =>
    have hstop : c.pos + 1 ≤ c.stop := by
      rw [hrest, List.length_cons] at hlen
      omega
    have htake : take 1 c = .ok [b] (c.advance 1) := by
      rw [take_of_le hstop, hrest]
      rfl
    have hword : word .w8 c = .ok b.toBitVec (c.advance 1) := by
      refine (bind_of_eq_ok htake _).trans ?_
      rw [← show Width.w8.encode b.toBitVec = [b] from encode_w8 b.toBitVec]
      exact congrArg (EStateM.Result.ok · _) (Width.w8.decode_encode b.toBitVec)
    exact bind_of_eq_ok hword _

end Cursor

namespace Walk

/-- Reads the payload of a kind without other values in it, as what it asks for. -/
def request : Tag → Walk σ (Request ν)
  | .bool => do return .bool ((← reading Cursor.byte) != 0)
  | .int w => do return .integer (Int64.ofBitVec ((← reading (Cursor.word w)).signExtend 64))
  | .uint .w64 => do return .uinteger (UInt64.ofBitVec (← reading (Cursor.word .w64)))
  | .uint w => do return .integer (Int64.ofBitVec ((← reading (Cursor.word w)).setWidth 64))
  | .single => do return .real (← reading Cursor.single).widen
  | .double => do return .real (← reading Cursor.double)
  | .text => do return .text (← text)
  | .bytes => do return .bytes (← reading (Cursor.take (← count 1)))
  | .null | .array | .object => pure .null

/-- Has the builder do what the payload of such a kind asks for. -/
def told (b : Builder σ ν) (tag : Tag) : Walk σ ν := do
  building (b.answer (← request tag))

/-- Reads the count and the members of a container, each value in it by `inner`. -/
def container (b : Builder σ ν) (tag : Tag) (inner : Walk σ ν) : Walk σ ν :=
  if tag = .array then array b inner else object b inner

/-- What is done behind a tag byte that stands at `offset`. -/
def afterTag (b : Builder σ ν) (o : Options) (inner : Interior σ ν) (offset : Nat)
    (byte : UInt8) : Walk σ ν :=
  match Tag.ofByte? byte, inner with
  | some tag, .ok inner => if tag.isContainer then container b tag inner else told b tag
  | some tag, .error refusal =>
    if tag.isContainer then throw (refusal.error offset) else told b tag
  | none, _ =>
    match o.unknownTags with
    | .reject => throw (.unknownTag byte offset)
    | .null => building b.null

theorem node_eq_bind (b : Builder σ ν) (o : Options) (inner : Interior σ ν) :
    node b o inner =
      position >>= fun offset => reading Cursor.byte >>= fun byte =>
        afterTag b o inner offset byte := by
  unfold node
  refine bind_congr fun offset => bind_congr fun byte => ?_
  unfold afterTag
  cases Tag.ofByte? byte with
  | none => cases inner <;> rfl
  | some tag =>
    cases tag with
    | uint w =>
      cases w <;> cases inner <;> simp only [told, request, bind_assoc, pure_bind] <;> rfl
    | array => cases inner <;> rfl
    | object => cases inner <;> rfl
    | _ => cases inner <;> simp only [told, request, bind_assoc, pure_bind] <;> rfl

/-- **A value is read by its tag byte and by what is done behind it.** -/
theorem node_eq (b : Builder σ ν) (o : Options) (inner : Interior σ ν) (c : Cursor) (s : σ) :
    node b o inner ⟨c, s⟩ =
      match c.rest with
      | [] => .error (.truncated c.pos) ⟨c, s⟩
      | byte :: _ => afterTag b o inner c.pos byte ⟨c.advance 1, s⟩ := by
  rw [node_eq_bind]
  show (reading Cursor.byte >>= _) _ = _
  have hbyte := Cursor.byte_eq c
  cases hrest : c.rest with
  | nil =>
    simp only [hrest] at hbyte
    refine bind_of_eq_error ?_ _
    simp only [reading, hbyte]
    rfl
  | cons byte rest =>
    simp only [hrest] at hbyte
    refine bind_of_eq_ok ?_ _
    simp only [reading, hbyte]

/-! ## Two walks step by step -/

/-- Composition of actions keeps the relation, and what only reads is related to itself. -/
structure ReadCoupling (Q : {α : Type} → Cursor.Read α → Prop)
    (P : {α : Type} → Walk σ₁ α → Walk σ₂ α → Prop) : Prop where
  cursor : Cursor.Closed Q
  pure : ∀ {α : Type} (x : α), P (pure x) (pure x)
  bind : ∀ {α β : Type} {m₁ : Walk σ₁ α} {m₂ : Walk σ₂ α} {f₁ : α → Walk σ₁ β} {f₂ : α → Walk σ₂ β},
    P m₁ m₂ → (∀ x, P (f₁ x) (f₂ x)) → P (m₁ >>= f₁) (m₂ >>= f₂)
  reading : ∀ {α : Type} {m : Cursor.Read α}, Q m → P (reading m) (reading m)
  count : ∀ unit, P (count unit) (count unit)

/-- The relation also holds between what two builders answer to one request. -/
structure Coupling (Q : {α : Type} → Cursor.Read α → Prop)
    (P : {α : Type} → Walk σ₁ α → Walk σ₂ α → Prop) (b₁ : Builder σ₁ ν) (b₂ : Builder σ₂ ν) :
    Prop extends ReadCoupling Q P where
  answer : ∀ r : Request ν, P (building (b₁.answer r)) (building (b₂.answer r))

variable {Q : {α : Type} → Cursor.Read α → Prop} {P : {α : Type} → Walk σ₁ α → Walk σ₂ α → Prop}

namespace ReadCoupling

variable (h : ReadCoupling Q P)
include h

theorem map {m₁ : Walk σ₁ α} {m₂ : Walk σ₂ α} (hm : P m₁ m₂) (f : α → β) :
    P (do return f (← m₁)) (do return f (← m₂)) :=
  h.bind hm fun _ => h.pure _

theorem text : P text text :=
  h.bind (h.count 1) fun n => h.reading (h.cursor.text n)

/-- **The payload of a kind without other values is read in the same way.** -/
theorem request (tag : Tag) : P (request (ν := ν) tag) (request tag) := by
  cases tag with
  | bool => exact h.map (h.reading h.cursor.byte) _
  | int w => exact h.map (h.reading (h.cursor.word w)) _
  | uint w => cases w <;> exact h.map (h.reading (h.cursor.word _)) _
  | single => exact h.map (h.reading h.cursor.single) _
  | double => exact h.map (h.reading h.cursor.double) _
  | text => exact h.map h.text _
  | bytes => exact h.bind (h.count 1) fun n => h.map (h.reading (h.cursor.take n)) _
  | null => exact h.pure _
  | array => exact h.pure _
  | object => exact h.pure _

end ReadCoupling

namespace Coupling

variable {b₁ : Builder σ₁ ν} {b₂ : Builder σ₂ ν} (h : Coupling Q P b₁ b₂)
include h

theorem told (tag : Tag) : P (told b₁ tag) (told b₂ tag) :=
  h.bind (h.request tag) h.answer

theorem times {step₁ : ν → Walk σ₁ ν} {step₂ : ν → Walk σ₂ ν} (hstep : ∀ x, P (step₁ x) (step₂ x))
    (n : Nat) : ∀ x, P (times n step₁ x) (times n step₂ x) := by
  induction n with
  | zero => exact h.pure
  | succ n ih => exact fun x => h.bind (hstep x) ih

theorem counted {unit : Nat} {step₁ : ν → Walk σ₁ ν} {step₂ : ν → Walk σ₂ ν}
    (opening : Nat → Request ν) (hstep : ∀ x, P (step₁ x) (step₂ x)) :
    P (counted unit (fun n => b₁.answer (opening n)) step₁)
      (counted unit (fun n => b₂.answer (opening n)) step₂) :=
  h.bind (h.count unit) fun n => h.bind (h.answer (opening n)) (h.times hstep n)

variable {inner₁ : Walk σ₁ ν} {inner₂ : Walk σ₂ ν} (hinner : P inner₁ inner₂)
include hinner

theorem array : P (array b₁ inner₁) (array b₂ inner₂) :=
  h.counted .array fun node => h.bind hinner fun element => h.answer (.append node element)

theorem object : P (object b₁ inner₁) (object b₂ inner₂) :=
  h.counted .object fun node => h.bind h.text fun key => h.bind hinner fun value =>
    h.answer (.set node key value)

variable (inner₁ inner₂) in
theorem container (tag : Tag) : P (container b₁ tag inner₁) (container b₂ tag inner₂) := by
  unfold Walk.container
  split
  · exact h.array hinner
  · exact h.object hinner

omit hinner

section
variable (hthrow : ∀ {α : Type} (e : DecodeError), P (throw e : Walk σ₁ α) (throw e)) (o : Options)
include hthrow

theorem afterTag {inner₁ : Interior σ₁ ν} {inner₂ : Interior σ₂ ν}
    (hinner : Interior.Rel P inner₁ inner₂) (offset : Nat) (byte : UInt8) :
    P (afterTag b₁ o inner₁ offset byte) (afterTag b₂ o inner₂ offset byte) := by
  unfold Walk.afterTag
  cases Tag.ofByte? byte with
  | none =>
    cases o.unknownTags with
    | reject => exact hthrow _
    | null => exact h.answer .null
  | some tag =>
    cases hinner with
    | refused =>
      simp only
      split
      · exact hthrow _
      · exact h.told tag
    | opened hinner =>
      simp only
      split
      · exact h.container _ _ hinner tag
      · exact h.told tag

variable (hposition : P position position)
include hposition

theorem node {inner₁ : Interior σ₁ ν} {inner₂ : Interior σ₂ ν}
    (hinner : Interior.Rel P inner₁ inner₂) : P (node b₁ o inner₁) (node b₂ o inner₂) := by
  rw [node_eq_bind, node_eq_bind]
  refine h.bind hposition fun offset => h.bind (h.reading h.cursor.byte) fun byte => ?_
  exact h.afterTag hthrow o hinner offset byte

/-- **Related builders leave reading a value related**, however many levels are left. -/
theorem value (refusal : Refusal) :
    ∀ levels, P (value b₁ o refusal levels) (value b₂ o refusal levels)
  | 0 => h.node hthrow o hposition (.refused refusal)
  | levels + 1 => h.node hthrow o hposition (.opened (value refusal levels))

end

end Coupling

end Walk

end WireTree
