import WireTree.Fields
import Mathlib.Algebra.BigOperators.Group.List.Basic
import Mathlib.Algebra.Order.Ring.Nat
import Mathlib.Data.List.Induction

/-!
# Objects from lists of pairs

What becomes of a list of pairs when its keys may repeat.

Results:
* `ofList_of_nodup`: pairs with distinct keys stay as they are.
* `mem_of_mem_ofList`, `nodup_keys_ofList`: every field is one of the pairs, and no key is left
  twice.
* **`keys_ofList`**, **`find?_ofList`**: the keys stand in the order in which they occur first, and
  each has the value with which it occurs last.
* **`sum_ofList_le`**: whatever a pair weighs, the fields weigh no more than the pairs together.
* `insert_mapValues`: it does not matter whether values are replaced before or after an insertion.
-/

namespace WireTree.Fields

variable {α : Type}

/-- A field of an object with distinct keys is found under its key. -/
theorem find?_of_mem {key : String} {value : α} {fields : List (String × α)}
    (h : (keys fields).Nodup) (hm : (key, value) ∈ fields) : find? key fields = some value := by
  induction fields with
  | nil => cases hm
  | cons pair rest ih =>
    obtain ⟨k, v⟩ := pair
    obtain ⟨hnotin, hrest⟩ := List.nodup_cons.1 h
    rcases List.mem_cons.1 hm with hhead | htail
    · obtain ⟨rfl, rfl⟩ := Prod.mk.inj hhead
      exact if_pos rfl
    · have hne : k ≠ key := by
        rintro rfl
        exact hnotin (List.mem_map.2 ⟨_, htail, rfl⟩)
      rw [find?, if_neg hne]
      exact ih hrest htail

/-- A new key goes last. -/
theorem insert_of_notMem {key : String} {value : α} {fields : List (String × α)}
    (h : key ∉ keys fields) : insert key value fields = fields ++ [(key, value)] := by
  induction fields with
  | nil => rfl
  | cons pair rest ih =>
    obtain ⟨k, v⟩ := pair
    obtain ⟨hne, hrest⟩ := not_or.1 (mt List.mem_cons.2 h)
    rw [insert, if_neg (Ne.symm hne), ih hrest, List.cons_append]

/-- Insertion adds nothing but the pair. -/
theorem mem_of_mem_insert {key : String} {value : α} {fields : List (String × α)}
    {pair : String × α} (h : pair ∈ insert key value fields) :
    pair = (key, value) ∨ pair ∈ fields := by
  induction fields with
  | nil => exact .inl (List.mem_singleton.1 h)
  | cons head rest ih =>
    obtain ⟨k, v⟩ := head
    rw [insert] at h
    split at h
    · rcases List.mem_cons.1 h with h | h
      · exact .inl h
      · exact .inr (List.mem_cons_of_mem _ h)
    · rcases List.mem_cons.1 h with h | h
      · exact .inr (h ▸ List.mem_cons_self)
      · exact (ih h).imp_right (List.mem_cons_of_mem _)

/-- A pair that is inserted adds its weight at most. Where it replaces a field, the old weight is
lost. -/
theorem sum_insert_le (weight : String × α → Nat) (key : String) (value : α)
    (fields : List (String × α)) :
    ((insert key value fields).map weight).sum ≤ (fields.map weight).sum + weight (key, value) := by
  induction fields with
  | nil => simp [insert]
  | cons pair rest ih =>
    obtain ⟨k, v⟩ := pair
    simp only [insert]
    split
    · simp only [List.map_cons, List.sum_cons]
      omega
    · simp only [List.map_cons, List.sum_cons]
      omega

/-! ## Inserting pairs in order -/

/-- The pairs after one more, from the front. -/
theorem ofList_append_singleton (pairs : List (String × α)) (pair : String × α) :
    ofList (pairs ++ [pair]) = insert pair.1 pair.2 (ofList pairs) := by
  simp only [ofList, List.foldl_append, List.foldl_cons, List.foldl_nil]

theorem mem_of_mem_ofList {pairs : List (String × α)} {pair : String × α}
    (h : pair ∈ ofList pairs) : pair ∈ pairs := by
  induction pairs using List.reverseRecOn with
  | nil => cases h
  | append_singleton pairs last ih =>
    rw [ofList_append_singleton] at h
    rcases mem_of_mem_insert h with rfl | h
    · exact List.mem_append_right _ List.mem_cons_self
    · exact List.mem_append_left _ (ih h)

theorem nodup_keys_ofList (pairs : List (String × α)) : (keys (ofList pairs)).Nodup := by
  induction pairs using List.reverseRecOn with
  | nil => exact List.nodup_nil
  | append_singleton pairs last ih =>
    rw [ofList_append_singleton]
    exact nodup_keys_insert ih

/-- Pairs with distinct keys stay as they are. -/
theorem ofList_of_nodup {pairs : List (String × α)} (h : (keys pairs).Nodup) :
    ofList pairs = pairs := by
  induction pairs using List.reverseRecOn with
  | nil => rfl
  | append_singleton pairs last ih =>
    rw [keys, List.map_append, List.map_singleton] at h
    obtain ⟨hpairs, -, hdisjoint⟩ := List.nodup_append.1 h
    have hnew : last.1 ∉ keys pairs := fun hm => hdisjoint _ hm _ List.mem_cons_self rfl
    rw [ofList_append_singleton, ih hpairs, insert_of_notMem hnew]

/-- A key that is found is one of the fields. -/
theorem mem_of_find? {key : String} {value : α} {fields : List (String × α)}
    (h : find? key fields = some value) : (key, value) ∈ fields := by
  induction fields with
  | nil => cases h
  | cons pair rest ih =>
    obtain ⟨k, v⟩ := pair
    rw [find?] at h
    split at h
    · rename_i hk
      cases h
      exact hk ▸ List.mem_cons_self
    · exact List.mem_cons_of_mem _ (ih h)

/-- A key that does not occur in front is looked for behind. -/
theorem find?_append_of_notMem {key : String} {fields : List (String × α)} (h : key ∉ keys fields)
    (rest : List (String × α)) : find? key (fields ++ rest) = find? key rest := by
  induction fields with
  | nil => rfl
  | cons pair fields ih =>
    obtain ⟨k, v⟩ := pair
    obtain ⟨hne, hfields⟩ := not_or.1 (mt List.mem_cons.2 h)
    rw [List.cons_append, find?, if_neg (Ne.symm hne), ih hfields]

/-- A key that is there keeps its place, and a new one goes last. -/
theorem keys_insert (key : String) (value : α) (fields : List (String × α)) :
    keys (insert key value fields) =
      if key ∈ keys fields then keys fields else keys fields ++ [key] := by
  induction fields with
  | nil => rfl
  | cons pair rest ih =>
    obtain ⟨k, v⟩ := pair
    by_cases hk : k = key
    · subst hk
      have hmem : k ∈ keys ((k, v) :: rest) := List.mem_cons_self
      rw [insert, if_pos rfl, if_pos hmem, keys, keys, List.map_cons, List.map_cons]
    · have hmem : key ∈ keys ((k, v) :: rest) ↔ key ∈ keys rest :=
        List.mem_cons.trans (or_iff_right (Ne.symm hk))
      rw [insert, if_neg hk, keys, List.map_cons, ← keys, ih]
      simp only [hmem]
      split <;> rfl

/-- **The keys of the fields are those of the pairs, in the order in which they occur first.** -/
theorem keys_ofList (pairs : List (String × α)) :
    keys (ofList pairs) = (keys pairs).eraseDups := by
  induction pairs using List.reverseRecOn with
  | nil => rfl
  | append_singleton pairs last ih =>
    have hkeys : keys (pairs ++ [last]) = keys pairs ++ [last.1] := List.map_append
    rw [ofList_append_singleton, keys_insert, ih, hkeys, List.eraseDups_append]
    by_cases hmem : last.1 ∈ keys pairs
    · simp [List.removeAll, hmem]
    · simp [List.removeAll, hmem, List.eraseDups_cons]

/-- **The value of a key is the one with which it occurs last.** -/
theorem find?_ofList (key : String) (pairs : List (String × α)) :
    find? key (ofList pairs) = find? key pairs.reverse := by
  induction pairs using List.reverseRecOn with
  | nil => rfl
  | append_singleton pairs last ih =>
    rw [ofList_append_singleton, find?_insert, ih, List.reverse_append, List.reverse_singleton,
      List.singleton_append, find?]

/-- A pair whose key does not occur behind it is one of the fields. -/
theorem mem_ofList_of_notMem {key : String} {after : List (String × α)} (h : key ∉ keys after)
    (value : α) (before : List (String × α)) :
    (key, value) ∈ ofList (before ++ (key, value) :: after) := by
  have hreverse : key ∉ keys after.reverse := by
    rwa [keys, List.map_reverse, List.mem_reverse]
  refine mem_of_find? ?_
  rw [find?_ofList, List.reverse_append, List.reverse_cons, List.append_assoc,
    find?_append_of_notMem hreverse, List.singleton_append, find?, if_pos rfl]

/-- **The fields weigh no more than the pairs they come from.** -/
theorem sum_ofList_le (weight : String × α → Nat) (pairs : List (String × α)) :
    ((ofList pairs).map weight).sum ≤ (pairs.map weight).sum := by
  induction pairs using List.reverseRecOn with
  | nil => exact Nat.le_refl 0
  | append_singleton pairs last ih =>
    rw [ofList_append_singleton, List.map_append, List.sum_append, List.map_singleton,
      List.sum_singleton]
    have hlast := sum_insert_le weight last.1 last.2 (ofList pairs)
    exact Nat.le_trans hlast (Nat.add_le_add_right ih _)

theorem length_ofList_le (pairs : List (String × α)) : (ofList pairs).length ≤ pairs.length := by
  have h := sum_ofList_le (fun _ => 1) pairs
  simpa using h

/-! ## Other values under the same keys -/

/-- The fields with `f` of every value. -/
def mapValues {β : Type} (f : α → β) (fields : List (String × α)) : List (String × β) :=
  fields.map fun field => (field.1, f field.2)

theorem keys_mapValues {β : Type} (f : α → β) (fields : List (String × α)) :
    keys (mapValues f fields) = keys fields := by
  simp only [keys, mapValues, List.map_map, Function.comp_def]

/-- Insertion looks at keys only. -/
theorem insert_mapValues {β : Type} (f : α → β) (key : String) (value : α)
    (fields : List (String × α)) :
    insert key (f value) (mapValues f fields) = mapValues f (insert key value fields) := by
  induction fields with
  | nil => rfl
  | cons field rest ih =>
    obtain ⟨k, v⟩ := field
    simp only [mapValues, List.map_cons, insert] at ih ⊢
    split
    · rfl
    · rw [ih, List.map_cons]

/-- Values may be replaced before the pairs are inserted or after that. -/
theorem ofList_mapValues {β : Type} (f : α → β) (pairs : List (String × α)) :
    ofList (mapValues f pairs) = mapValues f (ofList pairs) := by
  induction pairs using List.reverseRecOn with
  | nil => rfl
  | append_singleton pairs last ih =>
    rw [mapValues, List.map_append, List.map_singleton, ofList_append_singleton, ← mapValues, ih,
      ofList_append_singleton]
    exact insert_mapValues f last.1 last.2 _

end WireTree.Fields
