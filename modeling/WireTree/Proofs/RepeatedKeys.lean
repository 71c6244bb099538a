import WireTree.Proofs.Normalisation
import WireTree.Proofs.TreeKinds

/-!
# Repeated keys

An object may be written with a key more than once, and there is one thing that this means.

* `Wire.Layer` is one container around a tree: what stands in it before and after the tree, and the
  key of the tree if the container is an object. `Layer.around` puts the tree there.
* `Layer.valueAround` is the value of the container, made of a value in that place.
* `Wire.within layers t` is the tree inside of containers, the outermost first, and
  `Wire.valueWithin layers v` the same for values.
* `Layer.Keeps`: the container does not give the key of the place to another value behind it.

Results:
* `Wire.denote_within`: the value of a tree inside of containers is made of the value of the tree.
* `Layer.body_infix`: what is kept is written as part of the container.
* **`repeated_keys`**: decoding, in values and in JSON, collects pairs, and encoding writes what was
  collected.
-/

namespace WireTree

namespace Wire

/-! ## Trees inside of containers -/

/-- One container around a tree, with what stands beside the tree in it. -/
inductive Layer where
  | item (before after : List Wire)
  | field (before : List (String × Wire)) (key : String) (after : List (String × Wire))

namespace Layer

/-- The container with the tree in its place. -/
def around : Layer → Wire → Wire
  | item before after, t => .array (before ++ t :: after)
  | field before key after, t => .object (before ++ (key, t) :: after)

/-- The value of the container, with a value in that place. -/
def valueAround : Layer → Value → Value
  | item before after, v => .array (denoteItems before ++ v :: denoteItems after)
  | field before key after, v => .ofPairs (denotePairs before ++ (key, v) :: denotePairs after)

/-- No value behind the place has its key. -/
def Keeps : Layer → Prop
  | item _ _ => True
  | field _ key after => key ∉ Fields.keys after

end Layer

/-- The tree inside of containers, the outermost first. -/
def within (layers : List Layer) (t : Wire) : Wire :=
  layers.foldr Layer.around t

/-- The value that such containers have, with a value in that place. -/
def valueWithin (layers : List Layer) (v : Value) : Value :=
  layers.foldr Layer.valueAround v

theorem denotePairs_eq_mapValues (pairs : List (String × Wire)) :
    denotePairs pairs = Fields.mapValues denote pairs := by
  induction pairs with
  | nil => rfl
  | cons pair rest ih => rw [denotePairs, ih, Fields.mapValues, Fields.mapValues, List.map_cons]

theorem denoteItems_append (ts ts' : List Wire) :
    denoteItems (ts ++ ts') = denoteItems ts ++ denoteItems ts' := by
  induction ts with
  | nil => rfl
  | cons t ts ih => rw [List.cons_append, denoteItems, ih, denoteItems, List.cons_append]

theorem denotePairs_append (pairs pairs' : List (String × Wire)) :
    denotePairs (pairs ++ pairs') = denotePairs pairs ++ denotePairs pairs' := by
  simp only [denotePairs_eq_mapValues, Fields.mapValues, List.map_append]

theorem Layer.denote_around (layer : Layer) (t : Wire) :
    (layer.around t).denote = layer.valueAround t.denote := by
  cases layer with
  | item before after => rw [around, denote, denoteItems_append, denoteItems, valueAround]
  | field before key after => rw [around, denote, denotePairs_append, denotePairs, valueAround]

/-- **The value of a tree inside of containers is made of the value of the tree.** -/
theorem denote_within (layers : List Layer) (t : Wire) :
    (within layers t).denote = valueWithin layers t.denote := by
  induction layers with
  | nil => rfl
  | cons layer layers ih => exact (layer.denote_around _).trans (congrArg layer.valueAround ih)

theorem Layer.nesting_around (layer : Layer) (t : Wire) :
    t.nesting ≤ (layer.around t).nesting := by
  cases layer with
  | item before after =>
    exact Nat.le_succ_of_le (nesting_le_itemsNesting List.mem_append_cons_self)
  | field before key after =>
    have hmem : (key, t) ∈ before ++ (key, t) :: after := List.mem_append_cons_self
    exact Nat.le_succ_of_le (nesting_le_pairsNesting hmem)

theorem nesting_within (layers : List Layer) (t : Wire) :
    t.nesting ≤ (within layers t).nesting := by
  induction layers with
  | nil => exact Nat.le_refl _
  | cons layer layers ih => exact Nat.le_trans ih (layer.nesting_around _)

section
variable {policy : UnknownTags}

theorem exists_spells_of_mem_items {ts : List Wire} {t : Wire} (hmem : t ∈ ts) {bs : List UInt8}
    (h : SpellsItems policy ts bs) : ∃ q, Spells policy t q := by
  induction ts generalizing bs with
  | nil => cases hmem
  | cons head ts ih =>
    obtain _ | ⟨hhead, hrest⟩ := h
    obtain rfl | hmem := List.mem_cons.1 hmem
    · exact ⟨_, hhead⟩
    · exact ih hmem hrest

theorem exists_spells_of_mem_pairs {pairs : List (String × Wire)} {pair : String × Wire}
    (hmem : pair ∈ pairs) {bs : List UInt8} (h : SpellsPairs policy pairs bs) :
    ∃ q, Spells policy pair.2 q := by
  induction pairs generalizing bs with
  | nil => cases hmem
  | cons head pairs ih =>
    obtain _ | ⟨-, hhead, hrest⟩ := h
    obtain rfl | hmem := List.mem_cons.1 hmem
    · exact ⟨_, hhead⟩
    · exact ih hmem hrest

theorem Layer.exists_spells {layer : Layer} {t : Wire} {p : List UInt8}
    (h : Spells policy (layer.around t) p) : ∃ q, Spells policy t q := by
  cases layer with
  | item before after =>
    cases h with
    | tagged h =>
      cases h with
      | array hn hlen hitems => exact exists_spells_of_mem_items List.mem_append_cons_self hitems
  | field before key after =>
    have hmem : (key, t) ∈ before ++ (key, t) :: after := List.mem_append_cons_self
    cases h with
    | tagged h =>
      cases h with
      | object hn hlen hpairs => exact exists_spells_of_mem_pairs hmem hpairs

/-- What is spelled inside of containers is spelled. -/
theorem exists_spells_of_within {layers : List Layer} {t : Wire} {p : List UInt8}
    (h : Spells policy (within layers t) p) : ∃ q, Spells policy t q := by
  induction layers generalizing p with
  | nil => exact ⟨p, h⟩
  | cons layer layers ih =>
    obtain ⟨q, hq⟩ := Layer.exists_spells h
    exact ih hq

/-- The number of pairs of an object fits its count. -/
theorem length_lt_of_spells_object {pairs : List (String × Wire)} {p : List UInt8}
    (h : Spells policy (.object pairs) p) : pairs.length < 0x1_0000_0000_0000_0000 := by
  cases h with
  | tagged h =>
    cases h with
    | object hn hlen hpairs => exact hlen ▸ UInt64.toNat_lt _

end

end Wire

/-! ## What is written -/

namespace Value

theorem body_infix_itemsBody {v : Value} {items : List Value} (h : v ∈ items) :
    v.body <:+: itemsBody items := by
  induction items with
  | nil => cases h
  | cons head rest ih =>
    rw [itemsBody]
    obtain rfl | h := List.mem_cons.1 h
    · exact (List.prefix_append ..).isInfix
    · exact (ih h).trans (List.suffix_append ..).isInfix

theorem body_infix_fieldsBody {field : String × Value} {fields : List (String × Value)}
    (h : field ∈ fields) : field.2.body <:+: fieldsBody fields := by
  induction fields with
  | nil => cases h
  | cons head rest ih =>
    rw [fieldsBody]
    obtain rfl | h := List.mem_cons.1 h
    · exact ⟨_, _, rfl⟩
    · exact (ih h).trans (List.suffix_append ..).isInfix

end Value

namespace Wire

/-- **What a container keeps is written as part of it.** -/
theorem Layer.body_infix {layer : Layer} (h : layer.Keeps) (v : Value) :
    v.body <:+: (layer.valueAround v).body := by
  cases layer with
  | item before after =>
    rw [valueAround, Value.body, ← List.cons_append]
    have hmem : v ∈ denoteItems before ++ v :: denoteItems after := List.mem_append_cons_self
    exact (Value.body_infix_itemsBody hmem).trans (List.suffix_append ..).isInfix
  | field before key after =>
    have hkey : key ∉ Fields.keys (denotePairs after) := by
      rw [denotePairs_eq_mapValues, Fields.keys_mapValues]
      exact h
    have hmem := Fields.mem_ofList_of_notMem hkey v (denotePairs before)
    rw [valueAround, Value.ofPairs, Value.body, ← List.cons_append]
    exact (Value.body_infix_fieldsBody hmem).trans (List.suffix_append ..).isInfix

theorem body_infix_valueWithin {layers : List Layer} (h : ∀ layer ∈ layers, layer.Keeps)
    (v : Value) : v.body <:+: (valueWithin layers v).body := by
  induction layers with
  | nil => exact List.infix_rfl
  | cons layer layers ih =>
    obtain ⟨hlayer, hlayers⟩ := List.forall_mem_cons.1 h
    exact (ih hlayers).trans (layer.body_infix hlayer _)

end Wire

/-- **A repeated key means the same everywhere.** An object, inside of any containers, is written as
a list of pairs in which keys may be repeated, with the number of all pairs as its count. Then:

* Each value of a pair is decoded to the value that it has by itself.
* Decoding gives the containers with the object in its place that collects these pairs. Its keys are
  those of the pairs in the order in which they occur first, and each has the value with which it
  occurs last.
* Decoding to JSON gives the JSON tree of that value, and the JSON tree of the object collects the
  JSON trees of the values. Keys and places are the same.
* Encoding the value again can only fail for its size, and not unless some real is not a number. The
  object is written, if the containers keep it, with the number of the keys that are left as its
  count and with exactly their fields, in that order. -/
theorem repeated_keys {o : Options} {bytes p tail : List UInt8} {layers : List Wire.Layer}
    {pairs : List (String × Wire)}
    (hat : ValueAt o bytes (Wire.within layers (.object pairs)) p tail)
    (hexact : o.exactSize = true → tail = []) :
    let collected := Fields.mapValues Wire.denote pairs
    let fields := Fields.ofList collected
    let keys := (Fields.keys pairs).eraseDups
    let v := Wire.valueWithin layers (.ofPairs collected)
    (∀ pair ∈ pairs, ∀ q, Wire.Spells o.unknownTags pair.2 q →
      headerSize + q.length < 0x1_0000_0000 → decode o (frame q) = .ok pair.2.denote) ∧
    (decode o bytes = .ok v ∧ Fields.keys fields = keys ∧
      ∀ key, Fields.find? key fields = Fields.find? key collected.reverse) ∧
    (decodeJson o bytes = .ok (.ofValue v) ∧
      Json.ofValue (.ofPairs collected) =
        .object (Fields.ofList (Fields.mapValues Json.ofValue collected)) ∧
      Fields.ofList (Fields.mapValues Json.ofValue collected) =
        Fields.mapValues Json.ofValue fields) ∧
    (serialize v = .ok (frame v.body) ∨
      serialize v = .error (.tooLarge v.encodedSize) ∧ v.hasNaN = true) ∧
    ((∀ layer ∈ layers, layer.Keeps) → (Value.ofPairs collected).body <:+: v.body) ∧
    ∃ count : UInt64, count.toNat = keys.length ∧
      (Value.ofPairs collected).body =
        0x0f :: (Varint.encode count ++ Value.fieldsBody fields) := by
  intro collected fields keys v
  have hcollected : Wire.denotePairs pairs = collected := Wire.denotePairs_eq_mapValues pairs
  have hvalue : (Wire.within layers (.object pairs)).denote = v := by
    rw [Wire.denote_within, Wire.denote, hcollected]
  have hdecode : decode o bytes = .ok v := hvalue ▸ decode_eq_ok_of_valueAt hat hexact
  have hkeys : Fields.keys fields = keys := by
    rw [Fields.keys_ofList, Fields.keys_mapValues]
  refine ⟨fun pair hpair q hs hsize => ?_, ⟨hdecode, hkeys, ?_⟩, ⟨?_, ?_, ?_⟩, ?_, ?_, ?_⟩
  · have hnest : pair.2.nesting ≤ o.maxDepth.toNat := by
      refine Nat.le_trans (Wire.nesting_le_pairsNesting hpair) (Nat.le_of_succ_le ?_)
      exact Nat.le_trans (Wire.nesting_within layers (.object pairs)) hat.nesting
    exact decode_eq_ok_of_valueAt (valueAt_frame hs hsize hnest) fun _ => rfl
  · exact fun key => Fields.find?_ofList key collected
  · rw [decodeJson_eq_map_decode, hdecode]
    rfl
  · rw [Value.ofPairs, Json.ofValue, Json.ofFields_eq_mapValues,
      Fields.ofList_mapValues Json.ofValue collected]
  · exact Fields.ofList_mapValues Json.ofValue collected
  · rw [serialize_eq]
    by_cases hsize : v.encodedSize < 0x1_0000_0000
    · exact .inl (if_pos hsize)
    · refine .inr ⟨if_neg hsize, ?_⟩
      by_contra hnan
      have hlt := hat.encodedSize_lt (hvalue ▸ Bool.eq_false_of_not_eq_true hnan)
      rw [hvalue] at hlt
      exact hsize hlt
  · exact fun hkeeps => Wire.body_infix_valueWithin hkeeps _
  · obtain ⟨q, hq⟩ := Wire.exists_spells_of_within hat.spells
    have hlt := Wire.length_lt_of_spells_object hq
    have hle : fields.length ≤ pairs.length :=
      Nat.le_trans (Fields.length_ofList_le collected) (Nat.le_of_eq (List.length_map _))
    refine ⟨UInt64.ofNat fields.length, ?_, rfl⟩
    rw [toNat_ofNat_of_lt (Nat.lt_of_le_of_lt hle hlt), ← hkeys, Fields.keys, List.length_map]

/-- In an array, an object with the key `k` twice: the later value stands in the earlier place, and
the object is written with a count of two. -/
theorem repeated_keys_in_array :
    let bytes : List UInt8 :=
      [20, 0, 0, 0, 0x0e, 1, 0x0f, 3, 1, 0x6b, 0x06, 1, 1, 0x7a, 0x06, 2, 1, 0x6b, 0x06, 3]
    let pairs : List (String × Wire) := [("k", .integer 1), ("z", .integer 2), ("k", .integer 3)]
    let v : Value := .array [.object [("k", .int 3), ("z", .int 2)]]
    ValueAt {} bytes (.array [.object pairs]) (bytes.drop 4) [] ∧
      decode {} bytes = .ok v ∧ decodeJson {} bytes = .ok (.ofValue v) ∧
      [0x0f, 2, 1, 0x6b, 0x06, 3, 1, 0x7a, 0x06, 2] <:+: v.body := by
  intro bytes pairs v
  have hone : Varint.Form 1 [1] := Varint.Form.direct (b := 1) (by decide)
  have hk : Wire.Counted (Utf8.encode "k") [1, 0x6b] := .mk hone rfl
  have hz : Wire.Counted (Utf8.encode "z") [1, 0x7a] := .mk hone rfl
  have hint : ∀ x : BitVec 8, Wire.Spells .reject _ (0x06 :: Width.w8.encode x) :=
    fun x => .tagged (.uint (w := .w8) (by decide) x)
  have hpairs : Wire.SpellsPairs .reject pairs (bytes.drop 8) :=
    .cons hk (hint 1) (.cons hz (hint 2) (.cons hk (hint 3) .nil))
  have hobject : Wire.Spells .reject (.object pairs) (bytes.drop 6) :=
    .tagged (.object (Varint.Form.direct (by decide)) rfl hpairs)
  have harray : Wire.Spells .reject (.array [.object pairs]) (bytes.drop 4) :=
    .tagged (.array hone rfl (.cons hobject .nil))
  have hat : ValueAt {} bytes (Wire.within [.item [] []] (.object pairs)) (bytes.drop 4) [] :=
    ⟨⟨by decide, by decide⟩, rfl, harray, by decide⟩
  obtain ⟨-, ⟨hdecode, -⟩, ⟨hjson, -⟩, -, hwritten, -⟩ := repeated_keys hat fun _ => rfl
  exact ⟨hat, hdecode, hjson, hwritten (List.forall_mem_singleton.2 trivial)⟩

end WireTree
