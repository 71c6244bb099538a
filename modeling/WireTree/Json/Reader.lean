import WireTree.Json.Token

/-!
# Reading JSON text

A tree is put together token by token.

* `Json.Reader` holds the containers that are open, the innermost first, and what may come next.
* `Json.Reader.step` takes one token, or fails if it may not come next. Containers nest at most 127
  deep. A repeated key keeps its first position and gets its last value.
* `Json.ofText?` reads a text that holds one tree and nothing else.
-/

namespace WireTree.Json

/-- A container that is still open: the elements so far in reverse, or the fields so far and the key
whose value is to come. -/
inductive Frame where
  | array (items : List Json)
  | object (fields : List (String × Json)) (key : String)

/-- What may come next. -/
inductive Expectation where
  /-- A tree. -/
  | tree
  /-- The first element of an array, or its end. -/
  | firstItem
  /-- The first key of an object with no fields, or its end. -/
  | firstKey
  /-- A key of an object with the given fields. -/
  | key (fields : List (String × Json))
  /-- The colon behind a key of an object with the given fields. -/
  | colon (fields : List (String × Json)) (key : String)
  /-- A comma or the end of an array with the given elements in reverse. -/
  | moreItems (items : List Json)
  /-- A comma or the end of an object with the given fields. -/
  | moreFields (fields : List (String × Json))
  /-- Nothing: the tree is complete. -/
  | nothing (tree : Json)

/-- How far reading has come. -/
structure Reader where
  /-- The containers around the place that is read. -/
  frames : List Frame
  next : Expectation

/-- How deeply containers may nest. -/
def maxNesting : Nat := 127

namespace Reader

/-- Before the first token. -/
def start : Reader :=
  ⟨[], .tree⟩

/-- Puts a complete tree where one was expected. -/
def complete (tree : Json) : List Frame → Reader
  | [] => ⟨[], .nothing tree⟩
  | .array items :: frames => ⟨frames, .moreItems (tree :: items)⟩
  | .object fields key :: frames => ⟨frames, .moreFields (Fields.insert key tree fields)⟩

/-- Opens a container, unless it would be nested too deeply. -/
def open? (frames : List Frame) (next : Expectation) : Option Reader :=
  if frames.length < maxNesting then some ⟨frames, next⟩ else none

/-- Takes a token where a tree has to start. -/
def tree? (frames : List Frame) : Token → Option Reader
  | .null => some (complete .null frames)
  | .bool b => some (complete (.bool b) frames)
  | .whole n => some (complete (.whole n) frames)
  | .real x => some (complete (.real x) frames)
  | .text s => some (complete (.text s) frames)
  | .openArray => open? frames .firstItem
  | .openObject => open? frames .firstKey
  | _ => none

/-- Takes a token. -/
def step (r : Reader) (token : Token) : Option Reader :=
  match r.next, token with
  | .tree, t => tree? r.frames t
  | .firstItem, .closeArray => some (complete (.array []) r.frames)
  | .firstItem, t => tree? (.array [] :: r.frames) t
  | .firstKey, .closeObject => some (complete (.object []) r.frames)
  | .firstKey, .text s => some ⟨r.frames, .colon [] s⟩
  | .key fields, .text s => some ⟨r.frames, .colon fields s⟩
  | .colon fields key, .colon => some ⟨.object fields key :: r.frames, .tree⟩
  | .moreItems items, .comma => some ⟨.array items :: r.frames, .tree⟩
  | .moreItems items, .closeArray => some (complete (.array items.reverse) r.frames)
  | .moreFields fields, .comma => some ⟨r.frames, .key fields⟩
  | .moreFields fields, .closeObject => some (complete (.object fields) r.frames)
  | _, _ => none

/-- The tree, if it is complete. -/
def result? (r : Reader) : Option Json :=
  match r.next with
  | .nothing tree => some tree
  | _ => none

end Reader

/-- Reads a text that holds one tree and nothing else. -/
def ofText? (s : String) : Option Json := do
  let tokens ← Token.ofText? s
  let r ← tokens.toList.foldlM Reader.step Reader.start
  r.result?

end WireTree.Json
