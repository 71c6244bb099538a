import WireTree.Encode

/-!
# The bytes that writing produces

What a value, and a whole buffer, look like when they are written.

* `Value.body` are the bytes of a value: a tag, then a payload of the narrowest kind, with counts in
  their narrowest form.
* `AppendBuffer.Extends b bs b'`: from `b` to `b'`, the bytes `bs` were written behind the pending
  ones and nothing was taken out.
* `frame body` is a body behind a header that declares the total size.

Results:
* **`extends_putValue`**: writing a value appends its body to any buffer.
* **`length_body`**: the size of a value is the number of bytes of its body.
* **`encode_eq`**, `serialize_eq_ok_iff`: encoding gives the framed body, whatever was in the buffer
  before, exactly if the header can hold the size.
-/

namespace WireTree

/-- A count in its narrowest form, and as many bytes. -/
def counted (content : List UInt8) : List UInt8 :=
  Varint.encode (UInt64.ofNat content.length) ++ content

theorem length_counted (content : List UInt8) :
    (counted content).length = countedSize content.length := by
  rw [counted, List.length_append, Varint.length_encode, countedSize]

namespace Value

/-- The bytes of an unsigned number. -/
def bodyOfUInt (n : UInt64) : List UInt8 :=
  (Tag.ofUInt n).toByte :: (Width.ofUInt n).encode (n.toBitVec.setWidth (Width.ofUInt n).bits)

/-- The bytes of a signed number. -/
def bodyOfInt (n : Int64) : List UInt8 :=
  if 0 ≤ n.toInt then bodyOfUInt n.toUInt64
  else
    (Tag.int (Width.ofNegative n)).toByte ::
      (Width.ofNegative n).encode (n.toBitVec.setWidth (Width.ofNegative n).bits)

/-- The bytes of a real. -/
def bodyOfReal (x : Binary64) : List UInt8 :=
  match x.narrow? with
  | some y => Tag.single.toByte :: Width.w32.encode y.bits
  | none => Tag.double.toByte :: Width.w64.encode x.bits

mutual

/-- The bytes of a value. -/
def body : Value → List UInt8
  | null => [Tag.null.toByte]
  | bool b => [Tag.bool.toByte, if b then 1 else 0]
  | int n => bodyOfInt n
  | uint n => bodyOfUInt n
  | real x => bodyOfReal x
  | text s => Tag.text.toByte :: counted (Utf8.encode s)
  | bytes bs => Tag.bytes.toByte :: counted bs
  | array items =>
    Tag.array.toByte :: (Varint.encode (UInt64.ofNat items.length) ++ itemsBody items)
  | object fields =>
    Tag.object.toByte :: (Varint.encode (UInt64.ofNat fields.length) ++ fieldsBody fields)

/-- The bytes of values one after the other. -/
def itemsBody : List Value → List UInt8
  | [] => []
  | v :: vs => v.body ++ itemsBody vs

/-- The bytes of pairs one after the other. -/
def fieldsBody : List (String × Value) → List UInt8
  | [] => []
  | (k, v) :: rest => counted (Utf8.encode k) ++ v.body ++ fieldsBody rest

end

end Value

/-! ## Writing -/

namespace AppendBuffer

/-- The buffer `b'` is `b` with `bs` behind what was pending. -/
structure Extends (b : AppendBuffer) (bs : List UInt8) (b' : AppendBuffer) : Prop where
  pending : b'.pending = b.pending ++ bs
  start : b'.start ≤ b.start

variable {b b' b'' : AppendBuffer} {bs bs' : List UInt8}

theorem Extends.refl (b : AppendBuffer) : Extends b [] b :=
  ⟨(List.append_nil _).symm, Nat.le_refl _⟩

theorem Extends.trans (h : Extends b bs b') (h' : Extends b' bs' b'') :
    Extends b (bs ++ bs') b'' := by
  refine ⟨?_, Nat.le_trans h'.start h.start⟩
  rw [h'.pending, h.pending, List.append_assoc]

/-- Growth moves the start to zero, and nothing else moves it. -/
theorem extends_append (b : AppendBuffer) (bs : List UInt8) : Extends b bs (b.append bs) := by
  refine ⟨pending_append b bs, ?_⟩
  show (b.reserve bs.length).start ≤ b.start
  unfold reserve
  split
  · exact Nat.zero_le _
  · exact Nat.le_refl _

theorem extends_varint (b : AppendBuffer) (n : UInt64) :
    Extends b (Varint.encode n) (b.varint n) := by
  refine ⟨pending_varint b n, ?_⟩
  unfold varint
  split
  · exact (extends_append ..).start
  · exact Nat.le_trans (extends_append ..).start (extends_append ..).start

theorem extends_put (b : AppendBuffer) (i : Item) : Extends b i.encode (b.put i) := by
  cases i with
  | varint n => exact extends_varint b n
  | _ => exact extends_append b _

theorem extends_putTag (b : AppendBuffer) (t : Tag) : Extends b [t.toByte] (b.putTag t) :=
  ⟨pending_putTag b t, (extends_put b _).start⟩

/-- A tag and one more item. -/
theorem extends_putTag_put (b : AppendBuffer) (t : Tag) (i : Item) :
    Extends b (t.toByte :: i.encode) ((b.putTag t).put i) :=
  (extends_putTag b t).trans (extends_put _ i)

theorem extends_putUInt (b : AppendBuffer) (n : UInt64) :
    Extends b (Value.bodyOfUInt n) (b.putUInt n) :=
  extends_putTag_put b (Tag.ofUInt n) (.unsigned _ _)

theorem extends_putInt (b : AppendBuffer) (n : Int64) :
    Extends b (Value.bodyOfInt n) (b.putInt n) := by
  by_cases h : 0 ≤ n.toInt
  · rw [Value.bodyOfInt, putInt, if_pos h, if_pos h]
    exact extends_putUInt b n.toUInt64
  · rw [Value.bodyOfInt, putInt, if_neg h, if_neg h]
    exact extends_putTag_put b (.int (Width.ofNegative n)) (.signed _ _)

theorem extends_putReal (b : AppendBuffer) (x : Binary64) :
    Extends b (Value.bodyOfReal x) (b.putReal x) := by
  rw [Value.bodyOfReal, putReal]
  cases x.narrow? with
  | some y => exact extends_putTag_put b .single (.single y)
  | none => exact extends_putTag_put b .double (.double x)

theorem extends_putBool (b : AppendBuffer) (x : Bool) :
    Extends b [Tag.bool.toByte, if x then 1 else 0] (b.putBool x) := by
  cases x with
  | false => exact extends_putTag_put b .bool (.unsigned .w8 0)
  | true => exact extends_putTag_put b .bool (.unsigned .w8 1)

theorem extends_putKey (b : AppendBuffer) (s : String) :
    Extends b (counted (Utf8.encode s)) (b.putKey s) :=
  (extends_put b (.varint _)).trans (extends_put _ (.text s))

theorem extends_putText (b : AppendBuffer) (s : String) :
    Extends b (Tag.text.toByte :: counted (Utf8.encode s)) (b.putText s) :=
  (extends_putTag b .text).trans (extends_putKey _ s)

theorem extends_putBytes (b : AppendBuffer) (bs : List UInt8) :
    Extends b (Tag.bytes.toByte :: counted bs) (b.putBytes bs) :=
  (extends_putTag_put b .bytes (.varint _)).trans (extends_put _ (.bytes bs))

mutual

/-- **Writing a value appends its body.** -/
theorem extends_putValue : ∀ (v : Value) (b : AppendBuffer), Extends b v.body (b.putValue v)
  | .null, b => extends_putTag b .null
  | .bool x, b => extends_putBool b x
  | .int n, b => extends_putInt b n
  | .uint n, b => extends_putUInt b n
  | .real x, b => extends_putReal b x
  | .text s, b => extends_putText b s
  | .bytes bs, b => extends_putBytes b bs
  | .array items, b =>
    (extends_putTag_put b .array (.varint _)).trans (extends_putValues items _)
  | .object fields, b =>
    (extends_putTag_put b .object (.varint _)).trans (extends_putValueFields fields _)

theorem extends_putValues : ∀ (vs : List Value) (b : AppendBuffer),
    Extends b (Value.itemsBody vs) (b.putValues vs)
  | [], b => .refl b
  | v :: vs, b => (extends_putValue v b).trans (extends_putValues vs _)

theorem extends_putValueFields : ∀ (fields : List (String × Value)) (b : AppendBuffer),
    Extends b (Value.fieldsBody fields) (b.putValueFields fields)
  | [], b => .refl b
  | (k, v) :: rest, b =>
    ((extends_putKey b k).trans (extends_putValue v _)).trans (extends_putValueFields rest _)

end

end AppendBuffer

/-! ## Sizes -/

namespace Value

theorem length_bodyOfUInt (n : UInt64) :
    (bodyOfUInt n).length = 1 + (Tag.ofUInt n).payloadWidth := by
  rw [bodyOfUInt, List.length_cons, Width.length_encode, Nat.add_comm]
  rfl

theorem length_bodyOfInt (n : Int64) : (bodyOfInt n).length = 1 + (Tag.ofInt n).payloadWidth := by
  by_cases h : 0 ≤ n.toInt
  · rw [bodyOfInt, Tag.ofInt, if_pos h, if_pos h]
    exact length_bodyOfUInt n.toUInt64
  · rw [bodyOfInt, Tag.ofInt, if_neg h, if_neg h, List.length_cons, Width.length_encode,
      Nat.add_comm]
    rfl

theorem length_bodyOfReal (x : Binary64) :
    (bodyOfReal x).length = 1 + (Tag.ofReal x).payloadWidth := by
  rw [bodyOfReal, Tag.ofReal]
  cases x.narrow? <;> rfl

mutual

/-- **The size of a value is the number of its bytes.** -/
theorem length_body : ∀ v : Value, v.body.length = v.size
  | null => rfl
  | bool _ => rfl
  | int n => length_bodyOfInt n
  | uint n => length_bodyOfUInt n
  | real x => length_bodyOfReal x
  | text s => by
    rw [body, List.length_cons, length_counted, Utf8.length_encode, size, Nat.add_comm]
  | bytes bs => by rw [body, List.length_cons, length_counted, size, Nat.add_comm]
  | array items => by
    rw [body, List.length_cons, List.length_append, Varint.length_encode, size,
      itemsSize_eq items 0]
    omega
  | object fields => by
    rw [body, List.length_cons, List.length_append, Varint.length_encode, size,
      fieldsSize_eq fields 0]
    omega

theorem itemsSize_eq : ∀ (items : List Value) (before : Nat),
    itemsSize before items = before + (itemsBody items).length
  | [], _ => rfl
  | v :: vs, before => by
    rw [itemsSize, itemsSize_eq vs, itemsBody, List.length_append, length_body v]
    omega

theorem fieldsSize_eq : ∀ (fields : List (String × Value)) (before : Nat),
    fieldsSize before fields = before + (fieldsBody fields).length
  | [], _ => rfl
  | (k, v) :: rest, before => by
    rw [fieldsSize, fieldsSize_eq rest, fieldsBody, List.length_append, List.length_append,
      length_body v, length_counted, Utf8.length_encode]
    omega

end

end Value

/-! ## Whole buffers -/

/-- A body behind a header that declares the size of both. -/
def frame (body : List UInt8) : List UInt8 :=
  Width.w32.encode (BitVec.ofNat 32 (headerSize + body.length)) ++ body

namespace AppendBuffer

theorem drop_overwrite {xs : List UInt8} {start offset : Nat} (h : start ≤ xs.length)
    (bytes : List UInt8) :
    (overwrite xs (start + offset) bytes).drop start = overwrite (xs.drop start) offset bytes := by
  have hfront : start ≤ (xs.take (start + offset)).length := by
    rw [List.length_take]
    omega
  rw [overwrite, List.append_assoc, List.drop_append_of_le_length hfront, List.drop_take,
    Nat.add_sub_cancel_left, overwrite, List.append_assoc, List.drop_drop, Nat.add_assoc]

/-- A patch that stays inside the pending bytes overwrites them there. -/
theorem exists_patch (b : AppendBuffer) (offset : UInt64) (value : BitVec 32)
    (haddress : b.start + offset.toNat < 0x1_0000_0000_0000_0000)
    (hfit : offset.toNat + 4 ≤ b.length) :
    ∃ b', b.patch offset value = .ok b' ∧
      b'.pending = overwrite b.pending offset.toNat (Width.w32.encode value) := by
  have hstart := b.start_le
  have hend : b.start + offset.toNat + 4 ≤ b.written.size := by
    simp only [length] at hfit
    omega
  refine ⟨_, patch_of_le value haddress hend, ?_⟩
  exact drop_overwrite (by rwa [Array.length_toList]) _

/-- What is taken out is the body behind the patched header. -/
theorem takeFramed_eq {b : AppendBuffer} {header body : List UInt8}
    (hpending : b.pending = header ++ body) (hheader : header.length = headerSize)
    (hstart : b.start < 0x1_0000_0000_0000_0000) :
    b.takeFramed.1 =
      if headerSize + body.length < 0x1_0000_0000 then .ok (frame body)
      else .error (.tooLarge (headerSize + body.length)) := by
  have hlen : b.length = headerSize + body.length := by
    rw [← length_pending, hpending, List.length_append, hheader]
  rw [takeFramed, hlen]
  split
  · obtain ⟨b', hpatch, hb'⟩ := exists_patch b 0 (BitVec.ofNat 32 (headerSize + body.length))
      hstart (hlen ▸ Nat.le_add_right ..)
    simp only [hpatch, Except.toOption, Option.getD_some, pending_flush, hb', hpending]
    have hbehind : (header ++ body).drop 4 = body := List.drop_left' hheader
    simp only [overwrite, frame, Width.length_encode]
    exact congrArg (fun rest => Except.ok (_ ++ rest)) hbehind
  · rfl

/-- **Encoding gives the framed body of the value**, whatever was in the buffer before, and fails
exactly if the header cannot hold the size. -/
theorem encode_eq {b : AppendBuffer} (h : b.written.size < 0x1_0000_0000_0000_0000) (v : Value) :
    (b.encode v).1 =
      if v.encodedSize < 0x1_0000_0000 then .ok (frame v.body)
      else .error (.tooLarge v.encodedSize) := by
  have hheader := extends_put b.reset (.unsigned .w32 0)
  have hall := hheader.trans (extends_putValue v _)
  have hpending := hall.pending
  rw [pending_reset, List.nil_append] at hpending
  rw [Value.encodedSize, ← Value.length_body]
  exact takeFramed_eq hpending (Width.length_encode ..) (Nat.lt_of_le_of_lt hall.start h)

end AppendBuffer

/-- The buffer for a value is its framed body, or it is too large. -/
theorem serialize_eq (v : Value) :
    serialize v =
      if v.encodedSize < 0x1_0000_0000 then .ok (frame v.body)
      else .error (.tooLarge v.encodedSize) := by
  have hempty : (AppendBuffer.empty v.encodedSize).written.size < 0x1_0000_0000_0000_0000 :=
    Nat.two_pow_pos 64
  exact AppendBuffer.encode_eq hempty v

theorem serialize_eq_ok_iff {v : Value} {bytes : List UInt8} :
    serialize v = .ok bytes ↔ v.encodedSize < 0x1_0000_0000 ∧ bytes = frame v.body := by
  rw [serialize_eq]
  constructor
  · intro h
    split at h
    · cases h
      exact ⟨‹_›, rfl⟩
    · cases h
  · rintro ⟨h, rfl⟩
    exact if_pos h

end WireTree
