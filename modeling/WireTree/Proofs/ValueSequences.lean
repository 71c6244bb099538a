import WireTree.Proofs.RoundTrip

/-!
# Values in a row

Encoded values carry their own ends, so that bodies may stand one after the other.

* `Walk.readings b o depths s` are the answers of one walk that is asked for one value after the
  other, and the state in which it is left. A reading that fails does not end the walk.

A count is compared with all bytes left in the region, and these are more if other bodies follow.
That makes no difference to a spelling (`Walk.accepts_value` leaves open what comes behind it).

Results:
* `Walk.readings_of_spellsItems`: a walk before spellings of trees builds one tree after the other
  and stops behind the last.
* **`readings_frame_itemsBody`**: bodies in a row are read back as the values they belong to,
  whatever follows them, and a single one is decoded unless sizes have to be exact.
-/

namespace WireTree

open Cursor (facing)
open TreeKind (value)

variable {σ ν : Type}

namespace Walk

/-- The answers to reading one value after the other, each at a depth of its own, and the state that
the last reading leaves. A reading starts where the one before has stopped, also if that failed. -/
def readings (b : Builder σ ν) (o : Options) :
    List UInt64 → State σ → List (Except DecodeError ν) × State σ
  | [], s => ([], s)
  | depth :: depths, s =>
    match valueAt b o depth s with
    | .ok node after =>
      let (answers, last) := readings b o depths after
      (.ok node :: answers, last)
    | .error e after =>
      let (answers, last) := readings b o depths after
      (.error e :: answers, last)

/-- **Trees in a row are built one after the other**, and the walk stops behind the last. -/
theorem readings_of_spellsItems (b : Builder Unit ν) {o : Options} {ts : List Wire}
    {bs : List UInt8} (h : Wire.SpellsItems o.unknownTags ts bs)
    (hnest : Wire.itemsNesting ts ≤ o.levels 0) (pos : Nat) (tail : List UInt8) :
    readings b o (List.replicate ts.length 0) ⟨facing pos (bs ++ tail), ()⟩ =
      (ts.map fun t => .ok (t.build b ()).1, ⟨facing (pos + bs.length) tail, ()⟩) := by
  induction ts generalizing bs pos with
  | nil =>
    cases h
    rfl
  | cons t ts ih =>
    cases h with
    | @cons _ _ bs rest ht hts =>
      obtain ⟨hhead, hrest⟩ := Nat.max_le.1 hnest
      have hvalue : valueAt b o 0 ⟨facing pos (bs ++ (rest ++ tail)), ()⟩ =
          .ok (t.build b ()).1 ⟨facing (pos + bs.length) (rest ++ tail), ()⟩ :=
        (accepts_valueAt b o 0).eq_ok ⟨t, ht, hhead, rfl⟩ pos (rest ++ tail)
      rw [List.append_assoc, List.length_cons, List.replicate_succ, readings, hvalue]
      simp only [ih hts hrest, List.map_cons, List.length_append, Nat.add_assoc]

/-- At the end of its window a walk finds no value. -/
theorem valueAt_at_end (b : Builder σ ν) (o : Options) (depth : UInt64) (pos : Nat) (s : σ) :
    valueAt b o depth ⟨facing pos [], s⟩ = .error (.truncated pos) ⟨facing pos [], s⟩ := by
  have hbyte : Cursor.byte (facing pos []) = .error .endOfBuffer (facing pos []) :=
    bind_of_eq_error (bind_of_eq_error (Cursor.take_of_lt (Nat.lt_succ_self pos)) _) _
  have hread : reading Cursor.byte ⟨facing pos [], s⟩ =
      .error (.truncated pos) ⟨facing pos [], s⟩ := by
    simp only [reading, hbyte]
    rfl
  rw [valueAt_eq_node]
  exact bind_of_eq_error hread _

end Walk

/-! ## Bodies in a row -/

/-- Each body is part of the row. -/
theorem length_body_le_itemsBody {vs : List Value} {v : Value} (h : v ∈ vs) :
    v.body.length ≤ (Value.itemsBody vs).length := by
  induction vs with
  | nil => cases h
  | cons head rest ih =>
    rw [Value.itemsBody, List.length_append]
    rcases List.mem_cons.1 h with rfl | h
    · exact Nat.le_add_right ..
    · exact Nat.le_trans (ih h) (Nat.le_add_left ..)

/-- What is built of the trees of values are the normal forms of the values. -/
theorem map_finish_build_itemsWire {vs : List Value} (hkeys : ∀ v ∈ vs, v.DistinctKeys) :
    (Value.itemsWire vs).map (fun t => value.finish (t.build value.builder ()).1) =
      vs.map Value.normal := by
  induction vs with
  | nil => rfl
  | cons v vs ih =>
    obtain ⟨hv, hvs⟩ := List.forall_mem_cons.1 hkeys
    rw [Value.itemsWire, List.map_cons, ih hvs, finish_build, Value.denote_wire v hv, List.map_cons]

/-! ## Frames -/

section
variable {body : List UInt8} (h : headerSize + body.length < 0x1_0000_0000)
include h

/-- A walk over a frame starts before the body, also if there is none. -/
theorem region_frame :
    Header.region ⟨declaredSize (frame body)⟩ (frame body) = facing headerSize body := by
  have hbehind : (frame body).drop headerSize = body := List.drop_left' (Width.length_encode ..)
  have hlen : headerSize + body.length - headerSize = body.length := Nat.add_sub_cancel_left ..
  simp only [Header.region, Header.stop, declaredSize_frame h, Cursor.window, Nat.min_self, hbehind,
    length_frame, hlen, List.take_length, facing]

/-- Where sizes have to be exact, a frame with a value and more is refused for what is left. -/
theorem decode_frame_append {o : Options} {t : Wire} {bs tail : List UInt8}
    (hbody : body = bs ++ tail) (hs : Wire.Spells o.unknownTags t bs)
    (hnest : t.nesting ≤ o.maxDepth.toNat) :
    decode { o with exactSize := false } (frame body) = .ok t.denote ∧
      decode { o with exactSize := true } (frame body) =
        if tail = [] then .ok t.denote
        else .error (.trailingBytes tail.length (declaredSize (frame body))) := by
  have hpos : 0 < body.length := by
    have := Wire.nesting_lt_length hs
    rw [hbody, List.length_append]
    omega
  have hfits := headerFits_frame h hpos
  have hregion : declaredRegion (frame body) = bs ++ tail := (declaredRegion_frame h).trans hbody
  have hat : ∀ full, ValueAt { o with exactSize := full } (frame body) t bs tail :=
    fun full => ⟨hfits, hregion, hs, hnest⟩
  refine ⟨decode_eq_ok_of_valueAt (hat false) nofun, ?_⟩
  split
  · rename_i htail
    exact decode_eq_ok_of_valueAt (hat true) fun _ => htail
  · rename_i htail
    have hvalue : Walk.valueAt value.builder { o with exactSize := true } 0
        ⟨facing headerSize (bs ++ tail), ()⟩ =
          .ok (t.build value.builder ()).1 ⟨facing (headerSize + bs.length) tail, ()⟩ :=
      (Walk.accepts_valueAt value.builder { o with exactSize := true } 0).eq_ok
        ⟨t, hs, hnest, rfl⟩ headerSize tail
    have hleft : (tail.length != 0) = true :=
      bne_iff_ne.2 fun hzero => htail (List.eq_nil_of_length_eq_zero hzero)
    simp only [decode, decodeTree, decodeWith, headerParse_eq_ok_iff.2 ⟨hfits, rfl⟩,
      region_eq_facing hfits, hregion, root_eq, hvalue, Cursor.remaining_facing, hleft]
    rfl

end

/-- **Bodies in a row are read back as the values they belong to**, whatever bytes follow them.

In a frame around the bodies of some values and a tail, one walk answers with the values, in the
forms in which they are decoded by themselves. It is left before the tail; if there is none, another
reading fails at the declared size. With one value in front, the frame is decoded to that value
where sizes do not have to be exact, and else refused for the number of bytes in the tail. -/
theorem readings_frame_itemsBody (o : Options) (vs : List Value) (tail : List UInt8)
    (hkeys : ∀ v ∈ vs, v.DistinctKeys) (hnest : ∀ v ∈ vs, v.nesting ≤ o.maxDepth.toNat)
    (hsize : (frame (Value.itemsBody vs ++ tail)).length ≤ 0xffff_ffff) :
    let bytes := frame (Value.itemsBody vs ++ tail)
    let h : Header := ⟨declaredSize bytes⟩
    h.declared.toNat = bytes.length ∧
    (∀ v ∈ vs, serialize v = .ok (frame v.body) ∧ decode o (frame v.body) = .ok v.normal) ∧
    (∃ answers after,
      Walk.readings value.builder o (List.replicate vs.length 0) ⟨h.region bytes, ()⟩ =
        (answers, after) ∧
      answers.map (Except.map value.finish) = vs.map (fun v => .ok v.normal) ∧
      after.cursor = facing (headerSize + (Value.itemsBody vs).length) tail ∧
      (tail = [] → ∃ last, Walk.valueAt value.builder o 0 after =
        .error (.truncated h.declared.toNat) last)) ∧
    ∀ v, vs = [v] →
      decode { o with exactSize := false } bytes = .ok v.normal ∧
      decode { o with exactSize := true } bytes =
        if tail = [] then .ok v.normal else .error (.trailingBytes tail.length h.declared) := by
  intro bytes h
  have hbytes : headerSize + (Value.itemsBody vs ++ tail).length < 0x1_0000_0000 := by
    rw [← length_frame]
    exact Nat.lt_succ_of_le hsize
  have hbodies : headerSize + (Value.itemsBody vs).length < 0x1_0000_0000 := by
    rw [List.length_append] at hbytes
    omega
  have hspells : Wire.SpellsItems o.unknownTags (Value.itemsWire vs) (Value.itemsBody vs) :=
    spells_itemsBody vs (by omega)
  have hlevels : Wire.itemsNesting (Value.itemsWire vs) ≤ o.levels 0 := by
    rw [Options.levels_zero, Value.itemsNesting_wire]
    exact Value.itemsNesting_le_iff.2 hnest
  refine ⟨declaredSize_frame hbytes, ?_, ?_, ?_⟩
  · intro v hv
    have hv' : v.encodedSize < 0x1_0000_0000 := by
      have := length_body_le_itemsBody hv
      rw [Value.encodedSize, ← Value.length_body]
      omega
    exact ⟨serialize_eq_ok_iff.2 ⟨hv', rfl⟩, decode_frame_body hv' (hkeys v hv) (hnest v hv)⟩
  · have hread := Walk.readings_of_spellsItems value.builder hspells hlevels headerSize tail
    rw [Value.length_itemsWire, ← region_frame hbytes] at hread
    refine ⟨_, _, hread, ?_, rfl, ?_⟩
    · have hbuilt := congrArg (List.map (@Except.ok DecodeError Value))
        (map_finish_build_itemsWire hkeys)
      rw [List.map_map, List.map_map] at hbuilt
      rw [List.map_map]
      exact hbuilt
    · rintro rfl
      have hstop : h.declared.toNat = headerSize + (Value.itemsBody vs).length := by
        rw [declaredSize_frame hbytes, length_frame, List.append_nil]
      rw [hstop]
      exact ⟨_, Walk.valueAt_at_end ..⟩
  · rintro v rfl
    have hv := List.mem_singleton_self v
    have hbody : Value.itemsBody [v] ++ tail = v.body ++ tail := by
      rw [Value.itemsBody, Value.itemsBody, List.append_nil]
    have hlen := length_body_le_itemsBody hv
    have hs : Wire.Spells o.unknownTags v.wire v.body := spells_body v (by omega)
    rw [← Value.denote_wire v (hkeys v hv)]
    exact decode_frame_append hbytes hbody hs (by rw [Value.nesting_wire]; exact hnest v hv)

/-- Two values before a tail that looks like the tag of a third: both are read, and the walk is left
before the tail. -/
theorem readings_frame_itemsBody_two :
    let vs : List Value := [.array [.bool true], .text "a"]
    let bytes : List UInt8 := [12, 0, 0, 0, 0x0e, 1, 0x01, 1, 0x0c, 1, 0x61, 0x0f]
    ((∀ v ∈ vs, v.DistinctKeys) ∧ (∀ v ∈ vs, v.nesting ≤ (256 : UInt64).toNat) ∧
      frame (Value.itemsBody vs ++ [0x0f]) = bytes ∧ bytes.length ≤ 0xffff_ffff) ∧
    ∃ answers after,
      Walk.readings value.builder {} [0, 0] ⟨Header.region ⟨declaredSize bytes⟩ bytes, ()⟩ =
        (answers, after) ∧
      answers.map (Except.map value.finish) = [.ok (.array [.bool true]), .ok (.text "a")] ∧
      after.cursor = facing 11 [0x0f] := by
  intro vs bytes
  have hkeys : ∀ v ∈ vs, v.DistinctKeys := by
    simp [vs, Value.DistinctKeys, Value.ItemsDistinct]
  have hnest : ∀ v ∈ vs, v.nesting ≤ (256 : UInt64).toNat := by decide
  have hbytes : frame (Value.itemsBody vs ++ [0x0f]) = bytes := by decide
  have hsize : bytes.length ≤ 0xffff_ffff := by decide
  obtain ⟨-, -, ⟨answers, after, hread, hanswers, hcursor, -⟩, -⟩ :=
    readings_frame_itemsBody {} vs [0x0f] hkeys hnest (hbytes ▸ hsize)
  rw [hbytes] at hread
  exact ⟨⟨hkeys, hnest, hbytes, hsize⟩, answers, after, hread, hanswers, hcursor⟩

end WireTree
