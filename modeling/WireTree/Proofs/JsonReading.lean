import WireTree.Json.Reader
import WireTree.Proofs.JsonForms

/-!
# Trees that are read from text

A tree that is read has distinct keys, whatever the text repeats.

The reader keeps that of everything it holds: the containers that are open, and what it has put
together so far. A value that is put under a key replaces the one that is there.

Results:
* `Reader.distinctKeys_step`: no token changes it.
* **`distinctKeys_of_ofText?`**: so the keys of the tree are distinct.
-/

namespace WireTree.Json

/-- The keys of what an open container holds so far are distinct. -/
def Frame.DistinctKeys : Frame → Prop
  | .array items => ItemsDistinct items
  | .object fields _ => (Json.object fields).DistinctKeys

/-- The keys of what was read of the innermost container, or of the whole tree, are distinct. -/
def Expectation.DistinctKeys : Expectation → Prop
  | .key fields => (Json.object fields).DistinctKeys
  | .colon fields _ => (Json.object fields).DistinctKeys
  | .moreItems items => ItemsDistinct items
  | .moreFields fields => (Json.object fields).DistinctKeys
  | .nothing j => j.DistinctKeys
  | _ => True

/-- The keys of everything that the reader holds are distinct. -/
structure Reader.DistinctKeys (r : Reader) : Prop where
  frames : ∀ frame ∈ r.frames, frame.DistinctKeys
  next : r.next.DistinctKeys

/-- A value under a key keeps the keys distinct, also if the key is there already. -/
theorem distinctKeys_insert {key : String} {tree : Json} {fields : List (String × Json)}
    (htree : tree.DistinctKeys) (hfields : (object fields).DistinctKeys) :
    (object (Fields.insert key tree fields)).DistinctKeys := by
  obtain ⟨hnodup, hfields⟩ := hfields
  refine ⟨Fields.nodup_keys_insert hnodup, fieldsDistinct_iff.2 fun field hfield => ?_⟩
  rcases Fields.mem_of_mem_insert hfield with rfl | hfield
  · exact htree
  · exact fieldsDistinct_iff.1 hfields field hfield

theorem itemsDistinct_reverse {items : List Json} (h : ItemsDistinct items) :
    ItemsDistinct items.reverse :=
  itemsDistinct_iff.2 fun j hj => itemsDistinct_iff.1 h j (List.mem_reverse.1 hj)

namespace Reader

variable {frames : List Frame} {token : Token} {r r' : Reader}

theorem distinctKeys_complete {tree : Json} (htree : tree.DistinctKeys)
    (h : ∀ frame ∈ frames, frame.DistinctKeys) : (complete tree frames).DistinctKeys := by
  cases frames with
  | nil => exact ⟨h, htree⟩
  | cons frame frames =>
    obtain ⟨hframe, hframes⟩ := List.forall_mem_cons.1 h
    cases frame with
    | array items => exact ⟨hframes, htree, hframe⟩
    | object fields key => exact ⟨hframes, distinctKeys_insert htree hframe⟩

theorem distinctKeys_open? {next : Expectation} (hnext : next.DistinctKeys)
    (h : ∀ frame ∈ frames, frame.DistinctKeys) (hr : open? frames next = some r) :
    r.DistinctKeys := by
  unfold open? at hr
  split at hr
  · cases hr
    exact ⟨h, hnext⟩
  · cases hr

theorem distinctKeys_tree? (h : ∀ frame ∈ frames, frame.DistinctKeys)
    (hr : tree? frames token = some r) : r.DistinctKeys := by
  cases token with
  | null | bool _ | whole _ | real _ | text _ =>
    cases hr
    exact distinctKeys_complete trivial h
  | openArray =>
    have hnext : Expectation.firstItem.DistinctKeys := trivial
    exact distinctKeys_open? hnext h hr
  | openObject =>
    have hnext : Expectation.firstKey.DistinctKeys := trivial
    exact distinctKeys_open? hnext h hr
  | _ => cases hr

/-- No token makes a key come twice. -/
theorem distinctKeys_step (h : r.DistinctKeys) (hr : r.step token = some r') :
    r'.DistinctKeys := by
  obtain ⟨frames, next⟩ := r
  obtain ⟨hframes, hnext⟩ := h
  simp only at hframes hnext
  have hempty : (object []).DistinctKeys := ⟨List.nodup_nil, trivial⟩
  cases next with
  | tree => exact distinctKeys_tree? hframes hr
  | firstItem =>
    have hinner : ∀ frame ∈ .array [] :: frames, Frame.DistinctKeys frame :=
      List.forall_mem_cons.2 ⟨trivial, hframes⟩
    cases token with
    | closeArray =>
      cases hr
      exact distinctKeys_complete trivial hframes
    | _ =>
      simp only [step] at hr
      exact distinctKeys_tree? hinner hr
  | firstKey =>
    cases token with
    | closeObject =>
      cases hr
      exact distinctKeys_complete hempty hframes
    | text s =>
      cases hr
      exact ⟨hframes, hempty⟩
    | _ => cases hr
  | key fields =>
    cases token with
    | text s =>
      cases hr
      exact ⟨hframes, hnext⟩
    | _ => cases hr
  | colon fields key =>
    cases token with
    | colon =>
      cases hr
      exact ⟨List.forall_mem_cons.2 ⟨hnext, hframes⟩, trivial⟩
    | _ => cases hr
  | moreItems items =>
    cases token with
    | comma =>
      cases hr
      exact ⟨List.forall_mem_cons.2 ⟨hnext, hframes⟩, trivial⟩
    | closeArray =>
      cases hr
      exact distinctKeys_complete (itemsDistinct_reverse hnext) hframes
    | _ => cases hr
  | moreFields fields =>
    cases token with
    | comma =>
      cases hr
      exact ⟨hframes, hnext⟩
    | closeObject =>
      cases hr
      exact distinctKeys_complete hnext hframes
    | _ => cases hr
  | nothing tree => cases token <;> cases hr

/-- No run over tokens makes a key come twice. -/
theorem distinctKeys_foldlM {tokens : List Token} (h : r.DistinctKeys)
    (hr : tokens.foldlM step r = some r') : r'.DistinctKeys := by
  induction tokens generalizing r with
  | nil =>
    cases hr
    exact h
  | cons token rest ih =>
    rw [List.foldlM_cons] at hr
    obtain ⟨mid, hmid, hrest⟩ := Option.bind_eq_some_iff.1 hr
    exact ih (distinctKeys_step h hmid) hrest

end Reader

/-- **A tree that is read from text has distinct keys.** -/
theorem distinctKeys_of_ofText? {text : String} {j : Json} (h : ofText? text = some j) :
    j.DistinctKeys := by
  obtain ⟨tokens, -, h⟩ := Option.bind_eq_some_iff.1 h
  obtain ⟨r, hr, hj⟩ := Option.bind_eq_some_iff.1 h
  have hstart : Reader.start.DistinctKeys := ⟨nofun, trivial⟩
  have hnext := (Reader.distinctKeys_foldlM hstart hr).next
  unfold Reader.result? at hj
  split at hj
  · rename_i tree htree
    cases hj
    rwa [htree] at hnext
  · cases hj

end WireTree.Json
