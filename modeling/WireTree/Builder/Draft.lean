import WireTree.Builder
import WireTree.Json

/-!
# Building trees

Trees are built from drafts, which grow at their end.

* A `TreeKind` says how each kind of item looks in a type of trees.
* A `Draft` is a tree that may still grow: an array takes elements, an object takes fields, and
  a finished tree takes neither. Appending to a draft of another kind leaves it as it is.
* `TreeKind.builder` builds drafts, and `TreeKind.finish` gives the tree a draft stands for.
* `TreeKind.value` and `TreeKind.json` are the two types of trees of this library.
-/

namespace WireTree

/-- How the items of a buffer look in a type of trees. -/
structure TreeKind (α : Type) where
  null : α
  bool : Bool → α
  integer : Int64 → α
  uinteger : UInt64 → α
  real : Binary64 → α
  text : String → α
  bytes : List UInt8 → α
  array : List α → α
  object : List (String × α) → α

/-- A tree that may still grow. -/
inductive Draft (α : Type) where
  | done (tree : α)
  | array (items : Array α)
  | object (fields : List (String × α))

namespace TreeKind

variable {α : Type}

/-- The tree that a draft stands for. -/
def finish (kind : TreeKind α) : Draft α → α
  | .done tree => tree
  | .array items => kind.array items.toList
  | .object fields => kind.object fields

/-- The draft with one more element. -/
def appendTo (kind : TreeKind α) : Draft α → Draft α → Draft α
  | .array items, element => .array (items.push (kind.finish element))
  | other, _ => other

/-- The draft with a value for a key. -/
def setIn (kind : TreeKind α) : Draft α → String → Draft α → Draft α
  | .object fields, key, value => .object (Fields.insert key (kind.finish value) fields)
  | other, _, _ => other

/-- Builds trees of the given kind. -/
def builder (kind : TreeKind α) : Builder Unit (Draft α) where
  null := fun s => (.done kind.null, s)
  bool := fun b s => (.done (kind.bool b), s)
  integer := fun n s => (.done (kind.integer n), s)
  uinteger := fun n s => (.done (kind.uinteger n), s)
  real := fun x s => (.done (kind.real x), s)
  text := fun t s => (.done (kind.text t), s)
  bytes := fun bs s => (.done (kind.bytes bs), s)
  array := fun _ s => (.array #[], s)
  append := fun array element s => (kind.appendTo array element, s)
  object := fun _ s => (.object [], s)
  set := fun object key value s => (kind.setIn object key value, s)

/-- Values, with unsigned numbers kept as signed ones if they fit. -/
def value : TreeKind Value where
  null := .null
  bool := .bool
  integer := .int
  uinteger := .ofUInt
  real := .real
  text := .text
  bytes := .bytes
  array := .array
  object := .object

/-- JSON trees, with bytes as data URIs and null for reals that JSON cannot say. -/
def json : TreeKind Json where
  null := .null
  bool := .bool
  integer := fun n => .whole (.ofInt n)
  uinteger := fun n => .whole (.ofUInt n)
  real := .ofReal
  text := .text
  bytes := fun bs => .text (DataUri.encode bs)
  array := .array
  object := .object

end TreeKind

end WireTree
