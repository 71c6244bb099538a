import WireTree.Proofs.Acceptance

/-!
# The value of a buffer

Decoding gives the value of the tree that the grammar finds in a buffer.

Results:
* `finish_build`: what the builder of values makes of a tree is the value of the tree.
* `decode_eq_ok_of_valueAt`, `exists_valueAt_of_decode`: the two directions for one buffer.
* **`decode_eq_ok_iff_spelled`**: a buffer is accepted exactly if the grammar finds a value in it,
  at most one prefix of the region is a value, and decoding answers with the value found.
-/

namespace WireTree

open TreeKind (value)

/-! ## Building values -/

mutual

/-- The builder of values makes the value of the tree. -/
theorem finish_build : ∀ t : Wire, value.finish (t.build value.builder ()).1 = t.denote
  | .null | .bool _ | .integer _ | .uinteger _ | .real _ | .text _ | .bytes _ => rfl
  | .array items => by
    show value.finish (Wire.buildItems value.builder items (.array #[], ())).1 = _
    rw [buildItems_value items #[]]
    simp only [TreeKind.finish, Wire.denote, Array.toList_append, List.nil_append]
    rfl
  | .object pairs => by
    show value.finish (Wire.buildPairs value.builder pairs (.object [], ())).1 = _
    rw [buildPairs_value pairs []]
    rfl

/-- Elements go behind those that the array has. -/
theorem buildItems_value : ∀ (ts : List Wire) (items : Array Value),
    Wire.buildItems value.builder ts (.array items, ()) =
      (.array (items ++ (Wire.denoteItems ts).toArray), ())
  | [], items => by
    rw [Wire.denoteItems, Array.append_empty]
    rfl
  | t :: ts, items => by
    show Wire.buildItems value.builder ts
      (.array (items.push (value.finish (t.build value.builder ()).1)), ()) = _
    rw [finish_build t, buildItems_value ts, Wire.denoteItems]
    simp

/-- Pairs are inserted into those that the object has. -/
theorem buildPairs_value : ∀ (ts : List (String × Wire)) (fields : List (String × Value)),
    Wire.buildPairs value.builder ts (.object fields, ()) =
      (.object ((Wire.denotePairs ts).foldl (fun fields pair => Fields.insert pair.1 pair.2 fields)
        fields), ())
  | [], _ => rfl
  | (k, t) :: ts, fields => by
    show Wire.buildPairs value.builder ts
      (.object (Fields.insert k (value.finish (t.build value.builder ()).1) fields), ()) = _
    rw [finish_build t, buildPairs_value ts]
    rfl

end

/-! ## Decoding -/

theorem decode_eq_ok_iff_decodeWith {o : Options} {bytes : List UInt8} {v : Value} :
    decode o bytes = .ok v ↔
      ∃ node, decodeWith value.builder o bytes () = (.ok node, ()) ∧ v = value.finish node := by
  simp only [decode, decodeTree]
  constructor
  · intro h
    cases hd : decodeWith value.builder o bytes () with
    | mk result s =>
      rw [hd] at h
      cases result with
      | error e => cases h
      | ok node =>
        cases h
        exact ⟨node, rfl, rfl⟩
  · rintro ⟨node, hd, rfl⟩
    rw [hd]
    rfl

/-- A value that the grammar finds is decoded. -/
theorem decode_eq_ok_of_valueAt {o : Options} {bytes p tail : List UInt8} {t : Wire}
    (h : ValueAt o bytes t p tail) (hexact : o.exactSize = true → tail = []) :
    decode o bytes = .ok t.denote := by
  refine decode_eq_ok_iff_decodeWith.2 ⟨_, ?_, (finish_build t).symm⟩
  exact decodeWith_eq_ok_iff.2 ⟨t, p, tail, h, hexact, rfl⟩

/-- What is decoded is a value that the grammar finds. -/
theorem exists_valueAt_of_decode {o : Options} {bytes : List UInt8} {v : Value}
    (h : decode o bytes = .ok v) :
    ∃ t p tail, ValueAt o bytes t p tail ∧ (o.exactSize = true → tail = []) ∧ v = t.denote := by
  obtain ⟨node, hd, rfl⟩ := decode_eq_ok_iff_decodeWith.1 h
  obtain ⟨t, p, tail, hat, hexact, hb⟩ := decodeWith_eq_ok_iff.1 hd
  refine ⟨t, p, tail, hat, hexact, ?_⟩
  rw [(Prod.mk.inj hb).1, finish_build]

/-- **Decoding accepts exactly what the grammar does.** The header has to fit, and a prefix of the
declared region has to be a value that nests no deeper than allowed; where sizes have to be exact,
it has to be all of the region. At most one prefix is a value, and its tree is what decoding gives.

Where unknown tags are refused, the kinds of the grammar are those with the tags up to `0x0f`. -/
theorem decode_eq_ok_iff_spelled (o : Options) (bytes : List UInt8) :
    (∀ v, decode o bytes = .ok v ↔
      (5 ≤ bytes.length ∧ 5 ≤ (declaredSize bytes).toNat ∧
        (declaredSize bytes).toNat ≤ bytes.length) ∧
      ∃ t p tail, (bytes.take (declaredSize bytes).toNat).drop 4 = p ++ tail ∧
        Wire.Spells o.unknownTags t p ∧ t.nesting ≤ o.maxDepth.toNat ∧
        (o.exactSize = true → tail = []) ∧ v = t.denote) ∧
    ∀ t₁ t₂ p₁ p₂ tail₁ tail₂, (bytes.take (declaredSize bytes).toNat).drop 4 = p₁ ++ tail₁ →
      (bytes.take (declaredSize bytes).toNat).drop 4 = p₂ ++ tail₂ →
      Wire.Spells o.unknownTags t₁ p₁ → Wire.Spells o.unknownTags t₂ p₂ →
      p₁ = p₂ ∧ tail₁ = tail₂ ∧ t₁.denote = t₂.denote := by
  refine ⟨fun v => ⟨fun h => ?_, ?_⟩, ?_⟩
  · obtain ⟨t, p, tail, ⟨⟨h₁, h₂⟩, hregion, hs, hnest⟩, hexact, hv⟩ := exists_valueAt_of_decode h
    exact ⟨⟨Nat.le_trans h₁ h₂, h₁, h₂⟩, t, p, tail, hregion, hs, hnest, hexact, hv⟩
  · rintro ⟨⟨-, h₁, h₂⟩, t, p, tail, hregion, hs, hnest, hexact, rfl⟩
    exact decode_eq_ok_of_valueAt ⟨⟨h₁, h₂⟩, hregion, hs, hnest⟩ hexact
  · intro t₁ t₂ p₁ p₂ tail₁ tail₂ e₁ e₂ h₁ h₂
    rw [e₁] at e₂
    obtain ⟨rfl, hbuild⟩ := prefix_unique h₁ h₂ e₂ value.builder ()
    refine ⟨rfl, List.append_cancel_left e₂, ?_⟩
    rw [← finish_build, hbuild, finish_build]

/-- A padded count of no bytes, and one byte that is left over: the value is decoded where sizes do
not have to be exact, and no other prefix of the region is a value. -/
theorem decode_padded_count :
    decode {} [9, 0, 0, 0, 0x0d, 0xfd, 0, 0, 7] = .ok (.bytes []) ∧
    ∀ t p tail, [0x0d, 0xfd, 0, 0, 7] = p ++ tail → Wire.Spells .reject t p →
      p = [0x0d, 0xfd, 0, 0] ∧ tail = [7] ∧ t.denote = .bytes [] := by
  have hs : Wire.Spells .reject (.bytes []) [0x0d, 0xfd, 0, 0] :=
    .tagged (.bytes (.mk (.word (w := .w16) (by decide) 0) rfl))
  obtain ⟨haccepts, hunique⟩ := decode_eq_ok_iff_spelled {} [9, 0, 0, 0, 0x0d, 0xfd, 0, 0, 7]
  constructor
  · exact (haccepts _).2 ⟨by decide, .bytes [], _, [7], rfl, hs, by decide, nofun, rfl⟩
  · intro t p tail hregion ht
    exact hunique t (.bytes []) p _ tail [7] hregion rfl ht hs

end WireTree
