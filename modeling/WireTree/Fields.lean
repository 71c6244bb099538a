/-!
# Fields

The pairs of an object, in an order that callers can see.

* `Fields.insert` replaces the value of a key that is there already, in its place, and puts a new
  key last.
* `Fields.find?` is the value of a key.
* `Fields.ofList` inserts pairs one after the other, so a repeated key keeps its first position and
  gets its last value.

Results:
* `find?_insert`: an inserted key is found with its new value, and every other key as before.
* `nodup_keys_insert`: insertion keeps the keys distinct.
-/

namespace WireTree.Fields

variable {α : Type}

/-- Replaces the value of `key`, or puts the pair last if the key is new. -/
def insert (key : String) (value : α) : List (String × α) → List (String × α)
  | [] => [(key, value)]
  | (k, v) :: rest => if k = key then (key, value) :: rest else (k, v) :: insert key value rest

/-- The value of `key`. -/
def find? (key : String) : List (String × α) → Option α
  | [] => none
  | (k, v) :: rest => if k = key then some v else find? key rest

/-- The fields that result from inserting pairs in order. -/
def ofList (pairs : List (String × α)) : List (String × α) :=
  pairs.foldl (fun fields pair => insert pair.1 pair.2 fields) []

/-- The keys in order. -/
def keys (fields : List (String × α)) : List String :=
  fields.map Prod.fst

/-- An inserted key is found with its new value, and every other key as before. -/
theorem find?_insert (key other : String) (value : α) (fields : List (String × α)) :
    find? other (insert key value fields) =
      if key = other then some value else find? other fields := by
  induction fields with
  | nil => rfl
  | cons pair rest ih =>
    obtain ⟨k, v⟩ := pair
    simp only [insert]
    split
    · rename_i h
      subst h
      simp only [find?]
      split <;> rfl
    · rename_i h
      simp only [find?, ih]
      split
      · rename_i h'
        subst h'
        rw [if_neg (fun e => h e.symm)]
      · rfl

theorem mem_keys_insert {key other : String} {value : α} {fields : List (String × α)} :
    other ∈ keys (insert key value fields) ↔ other = key ∨ other ∈ keys fields := by
  induction fields with
  | nil => simp [insert, keys]
  | cons pair rest ih =>
    obtain ⟨k, v⟩ := pair
    simp only [insert]
    split
    · rename_i h
      subst h
      simp [keys]
    · simp only [keys, List.map_cons, List.mem_cons] at ih ⊢
      rw [ih]
      grind

/-- Insertion keeps the keys distinct. -/
theorem nodup_keys_insert {key : String} {value : α} {fields : List (String × α)}
    (h : (keys fields).Nodup) : (keys (insert key value fields)).Nodup := by
  induction fields with
  | nil => simp [insert, keys]
  | cons pair rest ih =>
    obtain ⟨k, v⟩ := pair
    have h' := List.nodup_cons.1 h
    simp only [insert]
    split
    · rename_i e
      subst e
      exact h
    · rename_i e
      refine List.nodup_cons.2 ⟨fun hm => ?_, ih h'.2⟩
      rcases mem_keys_insert.1 hm with rfl | hm
      · exact e rfl
      · exact h'.1 hm

end WireTree.Fields
