import WireTree.Walk

/-!
# Properties of all walks

What every piece of a walk has and composition keeps, every walk has.

* `Cursor.Closed Q`: composition of reading actions keeps `Q`, and reading bytes and text has it.
* `Walk.Closed Q P`: composition of actions keeps `P`, and reading by an action with `Q`, counting,
  building and refusing have it. What a builder does is left open, and so is the order of items.
* `Walk.Interior.Rel P`: what is inside of two containers is refused alike, or read by actions in
  the relation `P`. So a property of two walks is carried from the inside of a container outwards.

Results:
* `Cursor.Closed.word`, `Cursor.Closed.varint` and their kin: the reading actions of walks have `Q`.
* **`Walk.Closed.value`**: reading a value has `P`, however many levels are left.
-/

namespace WireTree

variable {σ ν α : Type}

namespace Cursor

/-- Composition of reading actions keeps the property, and reading bytes and text has it. -/
structure Closed (Q : {α : Type} → Read α → Prop) : Prop where
  pure : ∀ {α : Type} (x : α), Q (pure x)
  bind : ∀ {α β : Type} {m : Read α} {f : α → Read β}, Q m → (∀ x, Q (f x)) → Q (m >>= f)
  take : ∀ n, Q (take n)
  text : ∀ n, Q (text n)

namespace Closed

variable {Q : {α : Type} → Read α → Prop} (h : Closed Q)
include h

theorem word (w : Width) : Q (word w) :=
  h.bind (h.take w.bytes) fun _ => h.pure _

theorem byte : Q byte :=
  h.bind (h.word .w8) fun _ => h.pure _

theorem single : Q single :=
  h.bind (h.word .w32) fun _ => h.pure _

theorem double : Q double :=
  h.bind (h.word .w64) fun _ => h.pure _

theorem varint : Q Varint.read := by
  refine h.bind h.byte fun first => ?_
  cases Varint.ofMarker? first with
  | none => exact h.pure _
  | some w => exact h.bind (h.word w) fun _ => h.pure _

end Closed

end Cursor

namespace Walk

/-- Two interiors are one and the same refusal, or actions in the relation. -/
inductive Interior.Rel {σ₁ σ₂ ν₁ ν₂ : Type} (P : Walk σ₁ ν₁ → Walk σ₂ ν₂ → Prop) :
    Interior σ₁ ν₁ → Interior σ₂ ν₂ → Prop
  | refused (refusal : Refusal) : Rel P (.error refusal) (.error refusal)
  | opened {inner₁ : Walk σ₁ ν₁} {inner₂ : Walk σ₂ ν₂} (h : P inner₁ inner₂) :
      Rel P (.ok inner₁) (.ok inner₂)

/-- Composition of actions keeps the property, and the pieces of a walk have it. -/
structure Closed (Q : {α : Type} → Cursor.Read α → Prop) (P : {α : Type} → Walk σ α → Prop) :
    Prop where
  cursor : Cursor.Closed Q
  pure : ∀ {α : Type} (x : α), P (pure x)
  throw : ∀ {α : Type} (e : DecodeError), P (throw e : Walk σ α)
  bind : ∀ {α β : Type} {m : Walk σ α} {f : α → Walk σ β}, P m → (∀ x, P (f x)) → P (m >>= f)
  position : P position
  reading : ∀ {α : Type} {m : Cursor.Read α}, Q m → P (reading m)
  count : ∀ unit, P (count unit)
  building : ∀ {α : Type} (operation : σ → α × σ), P (building operation)

namespace Closed

variable {Q : {α : Type} → Cursor.Read α → Prop} {P : {α : Type} → Walk σ α → Prop}
  (h : Closed Q P)
include h

theorem reading_building {m : Cursor.Read α} (hm : Q m) (operation : α → σ → ν × σ) :
    P (do let x ← Walk.reading m; Walk.building (operation x)) :=
  h.bind (h.reading hm) fun x => h.building (operation x)

theorem text : P text :=
  h.bind (h.count 1) fun n => h.reading (h.cursor.text n)

theorem times {step : ν → Walk σ ν} (hstep : ∀ x, P (step x)) (n : Nat) :
    ∀ x, P (times n step x) := by
  induction n with
  | zero => exact h.pure
  | succ n ih => exact fun x => h.bind (hstep x) ih

theorem counted {unit : Nat} {opening : Nat → σ → ν × σ} {member : ν → Walk σ ν}
    (hmember : ∀ node, P (member node)) : P (counted unit opening member) :=
  h.bind (h.count unit) fun n => h.bind (h.building (opening n)) (h.times hmember n)

variable (b : Builder σ ν)

theorem array {inner : Walk σ ν} (hinner : P inner) : P (array b inner) :=
  h.counted fun node => h.bind hinner fun element => h.building (b.append node element)

theorem object {inner : Walk σ ν} (hinner : P inner) : P (object b inner) :=
  h.counted fun node => h.bind h.text fun key => h.bind hinner fun value =>
    h.building (b.set node key value)

variable (o : Options)

theorem node {inner : Interior σ ν} (hinner : ∀ w, inner = .ok w → P w) :
    P (node b o inner) := by
  refine h.bind h.position fun offset => h.bind (h.reading h.cursor.byte) fun byte => ?_
  cases Tag.ofByte? byte with
  | none =>
    cases o.unknownTags with
    | reject => exact h.throw _
    | null => exact h.building b.null
  | some tag =>
    cases tag with
    | null => exact h.building b.null
    | bool => exact h.reading_building h.cursor.byte fun x => b.bool (x != 0)
    | int w => exact h.reading_building (h.cursor.word w) fun x => b.integer _
    | uint w =>
      cases w with
      | w64 => exact h.reading_building (h.cursor.word .w64) fun x => b.uinteger _
      | w8 => exact h.reading_building (h.cursor.word .w8) fun x => b.integer _
      | w16 => exact h.reading_building (h.cursor.word .w16) fun x => b.integer _
      | w32 => exact h.reading_building (h.cursor.word .w32) fun x => b.integer _
    | single => exact h.reading_building h.cursor.single fun x => b.real x.widen
    | double => exact h.reading_building h.cursor.double b.real
    | text => exact h.bind h.text fun s => h.building (b.text s)
    | bytes => exact h.bind (h.count 1) fun n => h.reading_building (h.cursor.take n) b.bytes
    | array =>
      cases inner with
      | error => exact h.throw _
      | ok w => exact h.array b (hinner w rfl)
    | object =>
      cases inner with
      | error => exact h.throw _
      | ok w => exact h.object b (hinner w rfl)

/-- **Reading a value has the property, however many levels are left.** -/
theorem value (refusal : Refusal) : ∀ levels, P (value b o refusal levels)
  | 0 => h.node b o nofun
  | levels + 1 => h.node b o fun _ hw => Except.ok.inj hw ▸ value refusal levels

end Closed

end Walk

end WireTree
