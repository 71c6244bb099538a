import WireTree.Proofs.CursorRuns
import WireTree.Proofs.DecodedValue
import WireTree.Proofs.NestingCeiling

/-!
# Where errors point

An error names a place in the buffer, and what it says of the bytes there is so.

* `CutShort bytes stop offset`: why the piece that starts at `offset` does not fit before `stop`.
  There is a rule for each kind of piece; for the content of a text or of bytes there is none, since
  its count has been compared with the bytes left before.
* `Truthful o bytes stop e`: what the error `e` says of the bytes up to `stop`, and of the options.
  That a depth is no machine word is never said of a buffer.
* `Walk.Ends o bytes stop pos result`: the walk has stayed in its window and has not gone back
  behind `pos`. If it has failed, the error is truthful and points at a place between there and the
  cursor, or the program was stopped.
* `Walk.Honest o bytes stop m`: so the action `m` ends from every place in the region.

Results:
* `Walk.count_window`: what a count comes to in a window.
* **`Walk.honest_valueAt`**: reading a value is honest, with any builder and at any depth.
* **`errors_tell_the_truth`**: so are the check and every decoding.
-/

namespace WireTree

open Cursor (window)

variable {σ ν α β : Type}

/-! ## What errors say -/

/-- Why the piece that starts at a place does not fit before `stop`. -/
inductive CutShort (bytes : List UInt8) (stop : Nat) : Nat → Prop
  /-- No byte is left. -/
  | nothing {offset : Nat} (h : stop ≤ offset) : CutShort bytes stop offset
  /-- The tag in front has a payload of fixed length, and that is longer than what is left. -/
  | payload {p n : Nat} {tag : Tag} (hp : headerSize ≤ p) (htag : bytes[p]? = some tag.toByte)
      (hlen : tag.width? = some n) (h : stop < p + 1 + n) : CutShort bytes stop (p + 1)
  /-- The byte is the marker of a number, and its word is longer than what is left. -/
  | number {offset : Nat} {w : Width} (hw : w ≠ .w8)
      (hmarker : bytes[offset]? = some (Varint.marker w)) (h : stop < offset + 1 + w.bytes) :
      CutShort bytes stop offset
  /-- A number stands here, and it is larger than the number of bytes left behind it. -/
  | items {offset k : Nat} {n : UInt64} (hform : Varint.Form n ((bytes.drop offset).take k))
      (hfits : offset + k ≤ stop) (h : stop < offset + k + n.toNat) : CutShort bytes stop offset
  /-- The tag in front is that of an object, and twice the number that stands here is larger than
  the number of bytes left behind it. -/
  | pairs {p k : Nat} {n : UInt64} (hp : headerSize ≤ p)
      (htag : bytes[p]? = some Tag.object.toByte)
      (hform : Varint.Form n ((bytes.drop (p + 1)).take k)) (hfits : p + 1 + k ≤ stop)
      (h : stop < p + 1 + k + 2 * n.toNat) : CutShort bytes stop (p + 1)

/-- What an error says of the bytes up to `stop` and of the options. Headers are taken for granted,
so their errors say nothing that can be so, and no buffer nests so deeply that a depth overflows. -/
def Truthful (o : Options) (bytes : List UInt8) (stop : Nat) : DecodeError → Prop
  | .unknownTag tag p =>
    o.unknownTags = .reject ∧ headerSize ≤ p ∧ p < stop ∧ bytes[p]? = some tag ∧
      0x0f < tag.toNat
  | .tooDeep limit p =>
    limit = o.maxDepth ∧ headerSize ≤ p ∧ p < stop ∧
      (bytes[p]? = some 0x0e ∨ bytes[p]? = some 0x0f)
  | .invalidUtf8 p =>
    ∃ (start k : Nat) (n : UInt64), headerSize ≤ start ∧ start + k = p ∧
      Varint.Form n ((bytes.drop start).take k) ∧ 1 ≤ n.toNat ∧ p + n.toNat ≤ stop ∧
      ∀ s, (bytes.drop p).take n.toNat ≠ Utf8.encode s
  | .truncated p => headerSize ≤ p ∧ p ≤ stop ∧ CutShort bytes stop p
  | .trailingBytes unused declared =>
    o.exactSize = true ∧ declared.toNat = stop ∧ 0 < unused ∧
      ∃ t p tail, ValueAt o bytes t p tail ∧ headerSize + p.length + unused = stop
  | .bufferTooSmall .. | .declaredSizeTooSmall .. | .declaredSizeExceedsBuffer .. => False
  | .overflow => False

/-! ## Counts in a window -/

namespace Cursor

/-- A number is read in one of its forms, or it does not fit. -/
theorem varint_window {bytes : List UInt8} {pos stop : Nat} (hstop : stop ≤ bytes.length)
    (hpos : pos ≤ stop) :
    (∃ n k, Varint.read (window bytes pos stop) = .ok n (window bytes (pos + k) stop) ∧
      pos + k ≤ stop ∧ Varint.Form n ((bytes.drop pos).take k)) ∨
    ∃ pos', Varint.read (window bytes pos stop) = .error .endOfBuffer (window bytes pos' stop) ∧
      pos ≤ pos' ∧ pos' ≤ stop ∧ CutShort bytes stop pos := by
  obtain ⟨answer, pos', hask, hanswers⟩ : Settled bytes stop pos .varint := settled_varint
  rw [Nat.min_eq_left hstop] at hanswers
  cases hread : Varint.read (window bytes pos stop) with
  | ok n after =>
    rw [ask_of_eq_ok (bind_of_eq_ok hread _)] at hask
    obtain ⟨rfl, rfl⟩ := Prod.mk.inj hask
    cases hanswers with
    | read _ hwidth => cases hwidth
    | number hfits hform => exact .inl ⟨n, _, rfl, hfits, hform⟩
  | error e after =>
    rw [ask_of_eq_error (bind_of_eq_error hread _)] at hask
    obtain ⟨rfl, rfl⟩ := Prod.mk.inj hask
    cases hanswers with
    | missing hwidth => cases hwidth
    | noNumber hmissing =>
      exact .inr ⟨pos, rfl, Nat.le_refl _, hpos, .nothing (Nat.le_of_lt_succ hmissing)⟩
    | noWord hw hfits hmarker hmissing =>
      exact .inr ⟨pos + 1, rfl, Nat.le_succ _, hfits, .number hw hmarker hmissing⟩

/-- A window has no byte left, or its next byte is the one at its position. -/
theorem front_window (bytes : List UInt8) (pos stop : Nat) :
    (min stop bytes.length ≤ pos ∧ (window bytes pos stop).rest = []) ∨
    ∃ byte rest, pos < min stop bytes.length ∧ bytes[pos]? = some byte ∧
      (window bytes pos stop).rest = byte :: rest := by
  have hlen : (window bytes pos stop).rest.length = min stop bytes.length - pos :=
    (window bytes pos stop).length_rest
  cases hrest : (window bytes pos stop).rest with
  | nil =>
    rw [hrest] at hlen
    exact .inl ⟨Nat.le_of_sub_eq_zero hlen.symm, rfl⟩
  | cons byte rest =>
    rw [hrest, List.length_cons] at hlen
    have hlt : pos < min stop bytes.length := Nat.lt_of_sub_pos (hlen ▸ Nat.succ_pos _)
    have hhead := congrArg List.head? hrest
    rw [window, List.head?_take, if_neg (Nat.sub_ne_zero_of_lt hlt), List.head?_drop] at hhead
    exact .inr ⟨byte, rest, hlt, hhead, rfl⟩

end Cursor

namespace Walk

section
variable {bytes : List UInt8} {stop : Nat}

/-- A count is accepted if as many items of the least size may follow, and else it is refused where
it stands. In neither case has anything been asked of the builder. -/
theorem count_window (hstop : stop ≤ bytes.length) {pos : Nat} (hpos : pos ≤ stop) (unit : Nat)
    (s : σ) :
    (∃ (n : UInt64) (k : Nat),
      count unit ⟨window bytes pos stop, s⟩ = .ok n.toNat ⟨window bytes (pos + k) stop, s⟩ ∧
      Varint.Form n ((bytes.drop pos).take k) ∧ pos + k + n.toNat * unit ≤ stop) ∨
    ∃ pos', count unit ⟨window bytes pos stop, s⟩ =
        .error (.truncated pos) ⟨window bytes pos' stop, s⟩ ∧ pos ≤ pos' ∧ pos' ≤ stop ∧
      (CutShort bytes stop pos ∨
        ∃ (n : UInt64) (k : Nat), Varint.Form n ((bytes.drop pos).take k) ∧ pos + k ≤ stop ∧
          stop < pos + k + n.toNat * unit) := by
  rw [count_eq]
  obtain ⟨n, k, hread, hfits, hform⟩ | ⟨pos', hread, hlow, hhigh, hcut⟩ :=
    Cursor.varint_window hstop hpos
  · have hleft : (window bytes (pos + k) stop).remaining = stop - (pos + k) :=
      congrArg (· - (pos + k)) (Nat.min_eq_left hstop)
    simp only [hread, hleft]
    by_cases hroom : n.toNat * unit ≤ stop - (pos + k)
    · rw [if_pos hroom]
      exact .inl ⟨n, k, rfl, hform, by omega⟩
    · rw [if_neg hroom]
      exact .inr ⟨pos + k, rfl, Nat.le_add_right .., hfits, .inr ⟨n, k, hform, hfits, by omega⟩⟩
  · simp only [hread]
    exact .inr ⟨pos', rfl, hlow, hhigh, .inl hcut⟩

end

/-! ## Honest actions -/

/-- How an action has ended that was started at `pos`, in a window up to `stop`. -/
inductive Ends (o : Options) (bytes : List UInt8) (stop pos : Nat) :
    EStateM.Result DecodeError (State σ) α → Prop
  | ok {x : α} {s : σ} {pos' : Nat} (hlow : pos ≤ pos') (hhigh : pos' ≤ stop) :
      Ends o bytes stop pos (.ok x ⟨window bytes pos' stop, s⟩)
  | error {e : DecodeError} {s : σ} {place pos' : Nat} (hplace : e.offset? = some place)
      (hlow : pos ≤ place) (hbehind : place ≤ pos') (hhigh : pos' ≤ stop)
      (htrue : Truthful o bytes stop e) :
      Ends o bytes stop pos (.error e ⟨window bytes pos' stop, s⟩)
  | stopped {s : σ} {pos' : Nat} (hlow : pos ≤ pos') (hhigh : pos' ≤ stop) :
      Ends o bytes stop pos (.error .overflow ⟨window bytes pos' stop, s⟩)

/-- What has started further on has started here. -/
theorem Ends.mono {o : Options} {bytes : List UInt8} {stop pos pos' : Nat}
    {result : EStateM.Result DecodeError (State σ) α} (h : Ends o bytes stop pos' result)
    (hle : pos ≤ pos') : Ends o bytes stop pos result := by
  cases h with
  | ok hlow hhigh => exact .ok (Nat.le_trans hle hlow) hhigh
  | error hplace hlow hbehind hhigh htrue =>
    exact .error hplace (Nat.le_trans hle hlow) hbehind hhigh htrue
  | stopped hlow hhigh => exact .stopped (Nat.le_trans hle hlow) hhigh

/-- Started at `pos`, the action stays in its window and its errors are truthful. -/
def HonestAt (o : Options) (bytes : List UInt8) (stop pos : Nat) (m : Walk σ α) : Prop :=
  ∀ s, Ends o bytes stop pos (m ⟨window bytes pos stop, s⟩)

/-- So it is from every place in the region. -/
def Honest (o : Options) (bytes : List UInt8) (stop : Nat) (m : Walk σ α) : Prop :=
  ∀ pos, headerSize ≤ pos → pos ≤ stop → HonestAt o bytes stop pos m

section
variable {o : Options} {bytes : List UInt8} {stop : Nat}

theorem HonestAt.bind {m : Walk σ α} {f : α → Walk σ β} {pos : Nat} (hpos : headerSize ≤ pos)
    (hm : HonestAt o bytes stop pos m) (hf : ∀ x, Honest o bytes stop (f x)) :
    HonestAt o bytes stop pos (m >>= f) := by
  intro s
  have hends := hm s
  cases hresult : m ⟨window bytes pos stop, s⟩ with
  | ok x after =>
    rw [hresult] at hends
    rw [bind_of_eq_ok hresult]
    cases hends with
    | ok hlow hhigh => exact (hf x _ (Nat.le_trans hpos hlow) hhigh _).mono hlow
  | error e after =>
    rw [hresult] at hends
    rw [bind_of_eq_error hresult]
    cases hends with
    | error hplace hlow hbehind hhigh htrue => exact .error hplace hlow hbehind hhigh htrue
    | stopped hlow hhigh => exact .stopped hlow hhigh

theorem Honest.bind {m : Walk σ α} {f : α → Walk σ β} (hm : Honest o bytes stop m)
    (hf : ∀ x, Honest o bytes stop (f x)) : Honest o bytes stop (m >>= f) :=
  fun pos hpos hle => (hm pos hpos hle).bind hpos hf

theorem honest_pure (x : α) : Honest o bytes stop (pure x : Walk σ α) :=
  fun _ _ hle _ => .ok (Nat.le_refl _) hle

/-- The builder does not move the cursor. -/
theorem honest_building (operation : σ → α × σ) : Honest o bytes stop (building operation) :=
  fun _ _ hle _ => .ok (Nat.le_refl _) hle

theorem HonestAt.map {m : Walk σ α} {pos : Nat} (hpos : headerSize ≤ pos)
    (hm : HonestAt o bytes stop pos m) (f : α → β) :
    HonestAt o bytes stop pos (do return f (← m)) :=
  hm.bind hpos fun _ => honest_pure _

/-! ## Payloads -/

/-- What the kind says to be its payload is there, or it is missing where it should start. -/
theorem honestAt_payload (hstop : stop ≤ bytes.length) {p : Nat} {tag : Tag} {w : Width}
    (hp : headerSize ≤ p) (hlt : p < stop) (htag : bytes[p]? = some tag.toByte)
    (hlen : tag.width? = some w.bytes) {read : Cursor.Read α} {f : BitVec w.bits → α}
    (hread : read = do return f (← Cursor.word w)) :
    HonestAt o bytes stop (p + 1) (reading read : Walk σ α) := by
  intro s
  subst hread
  by_cases h : p + 1 + w.bytes ≤ stop
  · obtain ⟨x, -, hword⟩ := Cursor.word_window_of_le (Nat.le_min.2 ⟨h, Nat.le_trans h hstop⟩)
    have hread : (do return f (← Cursor.word w) : Cursor.Read α) (window bytes (p + 1) stop) = _ :=
      bind_of_eq_ok hword _
    simp only [reading, hread]
    exact .ok (Nat.le_add_right ..) h
  · have hmissing : min stop bytes.length < p + 1 + w.bytes := by omega
    have hread : (do return f (← Cursor.word w) : Cursor.Read α) (window bytes (p + 1) stop) = _ :=
      bind_of_eq_error (Cursor.word_window_of_lt hmissing) _
    simp only [reading, hread]
    have hcut : CutShort bytes stop (p + 1) := .payload hp htag hlen (Nat.lt_of_not_le h)
    exact .error rfl (Nat.le_refl _) (Nat.le_refl _) hlt ⟨Nat.le_succ_of_le hp, hlt, hcut⟩

/-- A count is refused truthfully. Items of two bytes are those of an object, and then its tag has
to stand in front. -/
theorem honestAt_count (hstop : stop ≤ bytes.length) {pos unit : Nat} (hpos : headerSize ≤ pos)
    (hle : pos ≤ stop)
    (hunit : unit = 1 ∨ unit = 2 ∧ ∃ p, p + 1 = pos ∧ headerSize ≤ p ∧
      bytes[p]? = some Tag.object.toByte) :
    HonestAt o bytes stop pos (count unit : Walk σ Nat) := by
  intro s
  obtain ⟨n, k, hcount, -, hroom⟩ | ⟨pos', hcount, hlow, hhigh, hcut⟩ :=
    count_window hstop hle unit s
  · rw [hcount]
    exact .ok (Nat.le_add_right ..) (Nat.le_trans (Nat.le_add_right ..) hroom)
  · rw [hcount]
    refine .error rfl (Nat.le_refl _) hlow hhigh ⟨hpos, hle, ?_⟩
    obtain hcut | ⟨n, k, hform, hfits, hmissing⟩ := hcut
    · exact hcut
    · obtain rfl | ⟨rfl, p, rfl, hp, htag⟩ := hunit
      · exact .items hform hfits (by omega)
      · exact .pairs hp htag hform hfits (by omega)

/-- Behind a count that was accepted, all that it announces is in the region. -/
theorem honest_counted (hstop : stop ≤ bytes.length) {f : Nat → Walk σ α}
    (hf : ∀ (pos k : Nat) (n : UInt64), headerSize ≤ pos →
      Varint.Form n ((bytes.drop pos).take k) → pos + k + n.toNat ≤ stop →
      HonestAt o bytes stop (pos + k) (f n.toNat)) :
    Honest o bytes stop (count 1 >>= f) := by
  intro pos hpos hle s
  obtain ⟨n, k, hcount, hform, hroom⟩ | ⟨pos', hcount, -⟩ := count_window hstop hle 1 s
  · rw [bind_of_eq_ok hcount]
    rw [Nat.mul_one] at hroom
    exact (hf pos k n hpos hform hroom s).mono (Nat.le_add_right ..)
  · have hends := honestAt_count (o := o) hstop hpos hle (.inl rfl) s
    rw [hcount] at hends
    rw [bind_of_eq_error hcount]
    cases hends with
    | error hplace hlow hbehind hhigh htrue => exact .error hplace hlow hbehind hhigh htrue

/-- Bytes are not truncated behind their count. -/
theorem honest_bytes (hstop : stop ≤ bytes.length) :
    Honest o bytes stop (do reading (Cursor.take (← count 1)) : Walk σ (List UInt8)) := by
  refine honest_counted hstop fun pos k n _ _ hroom s => ?_
  simp only [reading, Cursor.take_window_of_le (Nat.le_min.2 ⟨hroom, Nat.le_trans hroom hstop⟩)]
  exact .ok (Nat.le_add_right ..) hroom

/-- Nor is a text. If its bytes are refused, they are there, and there is one at least. -/
theorem honest_text (hstop : stop ≤ bytes.length) :
    Honest o bytes stop (text : Walk σ String) := by
  refine honest_counted hstop fun pos k n hpos hform hroom s => ?_
  have hfits := Nat.le_min.2 ⟨hroom, Nat.le_trans hroom hstop⟩
  cases hs : Utf8.decode? ((bytes.drop (pos + k)).take n.toNat) with
  | some content =>
    simp only [reading, Cursor.text, Cursor.take_window_of_le hfits, hs]
    exact .ok (Nat.le_add_right ..) hroom
  | none =>
    simp only [reading, Cursor.text, Cursor.take_window_of_le hfits, hs]
    have htext : ∀ content, (bytes.drop (pos + k)).take n.toNat ≠ Utf8.encode content := by
      intro content hbytes
      rw [hbytes, Utf8.decode?_encode] at hs
      cases hs
    have hone : 1 ≤ n.toNat := by
      refine Nat.one_le_iff_ne_zero.2 fun hzero => htext "" ?_
      rw [hzero]
      rfl
    exact .error rfl (Nat.le_refl _) (Nat.le_refl _) (Nat.le_trans (Nat.le_add_right ..) hroom)
      ⟨pos, k, n, hpos, rfl, hform, hone, hroom, htext⟩

/-! ## Values -/

section
variable (hstop : stop ≤ bytes.length)
include hstop

/-- The payload of a kind without other values, behind the tag byte of that kind. -/
theorem honestAt_request {p : Nat} {tag : Tag} (hp : headerSize ≤ p) (hlt : p < stop)
    (htag : bytes[p]? = some tag.toByte) :
    HonestAt o bytes stop (p + 1) (request tag : Walk σ (Request ν)) := by
  have hnext : headerSize ≤ p + 1 := Nat.le_succ_of_le hp
  have hword : ∀ w : Width, tag.width? = some w.bytes →
      HonestAt o bytes stop (p + 1) (reading (Cursor.word w) : Walk σ (BitVec w.bits)) :=
    fun w hlen => honestAt_payload hstop hp hlt htag hlen (bind_pure _).symm
  cases tag with
  | bool => exact (honestAt_payload hstop (w := .w8) hp hlt htag rfl rfl).map hnext _
  | int w => exact (hword w rfl).map hnext _
  | uint w => cases w <;> exact (hword _ rfl).map hnext _
  | single => exact (honestAt_payload hstop (w := .w32) hp hlt htag rfl rfl).map hnext _
  | double => exact (honestAt_payload hstop (w := .w64) hp hlt htag rfl rfl).map hnext _
  | text => exact (honest_text hstop _ hnext hlt).map hnext _
  | bytes =>
    have hbytes := (honest_bytes (σ := σ) (o := o) hstop _ hnext hlt).map hnext
      (Request.bytes (ν := ν))
    rwa [bind_assoc] at hbytes
  | null => exact honest_pure _ _ hnext hlt
  | array => exact honest_pure _ _ hnext hlt
  | object => exact honest_pure _ _ hnext hlt

omit hstop in
theorem honest_times {step : ν → Walk σ ν} (hstep : ∀ x, Honest o bytes stop (step x)) (n : Nat) :
    ∀ x, Honest o bytes stop (times n step x) := by
  induction n with
  | zero => exact honest_pure
  | succ n ih => exact fun x => (hstep x).bind ih

/-- The count and the members of a container, behind its tag byte. -/
theorem honestAt_container (b : Builder σ ν) {inner : Walk σ ν} (hinner : Honest o bytes stop inner)
    {p : Nat} {tag : Tag} (htag : bytes[p]? = some tag.toByte) (hcontainer : tag.isContainer = true)
    (hp : headerSize ≤ p) (hlt : p < stop) :
    HonestAt o bytes stop (p + 1) (container b tag inner) := by
  have hnext : headerSize ≤ p + 1 := Nat.le_succ_of_le hp
  cases tag with
  | array =>
    refine (honestAt_count hstop hnext hlt (.inl rfl)).bind hnext fun n => ?_
    refine (honest_building _).bind (honest_times (fun node => ?_) n)
    exact hinner.bind fun element => honest_building _
  | object =>
    refine (honestAt_count hstop hnext hlt (.inr ⟨rfl, p, rfl, hp, htag⟩)).bind hnext fun n => ?_
    refine (honest_building _).bind (honest_times (fun node => ?_) n)
    exact (honest_text hstop).bind fun key => hinner.bind fun value => honest_building _
  | _ => cases hcontainer

/-- What is inside of a container is read honestly, or it is not read for one of the reasons that
the options give. -/
inductive HonestInside (o : Options) (bytes : List UInt8) (stop : Nat) : Interior σ ν → Prop
  | opened {m : Walk σ ν} (h : Honest o bytes stop m) : HonestInside o bytes stop (.ok m)
  | tooDeep : HonestInside o bytes stop (.error (.tooDeep o.maxDepth))
  | overflow : HonestInside o bytes stop (.error .overflow)

omit hstop in
theorem honestInside_refusal (depth : UInt64) :
    HonestInside o bytes stop (.error (o.refusal depth) : Interior σ ν) := by
  unfold Options.refusal
  split
  · exact .overflow
  · exact .tooDeep

/-- What is done behind the tag byte at `p`. An error may point at that byte. -/
theorem ends_afterTag (b : Builder σ ν) {inner : Interior σ ν}
    (hinner : HonestInside o bytes stop inner) {p : Nat} {byte : UInt8}
    (hbyte : bytes[p]? = some byte) (hp : headerSize ≤ p) (hlt : p < stop) (s : σ) :
    Ends o bytes stop p (afterTag b o inner p byte ⟨window bytes (p + 1) stop, s⟩) := by
  have hbehind : p ≤ p + 1 := Nat.le_succ p
  cases htag : Tag.ofByte? byte with
  | none =>
    cases hpolicy : o.unknownTags with
    | reject =>
      have htrue : Truthful o bytes stop (.unknownTag byte p) :=
        ⟨hpolicy, hp, hlt, hbyte, Wire.ofByte?_eq_none_iff.1 htag⟩
      simp only [afterTag, htag, hpolicy]
      exact .error rfl (Nat.le_refl _) hbehind hlt htrue
    | null =>
      simp only [afterTag, htag, hpolicy]
      exact (honest_building _ _ (Nat.le_succ_of_le hp) hlt s).mono hbehind
  | some tag =>
    rw [← Tag.toByte_of_ofByte? htag] at hbyte
    have htold : HonestAt o bytes stop (p + 1) (told b tag) :=
      (honestAt_request hstop hp hlt hbyte).bind (Nat.le_succ_of_le hp) fun _ => honest_building _
    cases hcontainer : tag.isContainer with
    | false =>
      have hends := (htold s).mono hbehind
      cases inner <;>
        simpa only [afterTag, htag, hcontainer, Bool.false_eq_true, if_false] using hends
    | true =>
      cases hinner with
      | opened hm =>
        have hm := honestAt_container hstop b hm hbyte hcontainer hp hlt
        simpa only [afterTag, htag, hcontainer, if_true] using (hm s).mono hbehind
      | overflow =>
        simp only [afterTag, htag, hcontainer]
        exact .stopped hbehind hlt
      | tooDeep =>
        have htrue : Truthful o bytes stop (.tooDeep o.maxDepth p) := by
          refine ⟨rfl, hp, hlt, ?_⟩
          cases tag with
          | array => exact .inl hbyte
          | object => exact .inr hbyte
          | _ => cases hcontainer
        simp only [afterTag, htag, hcontainer]
        exact .error rfl (Nat.le_refl _) hbehind hlt htrue

theorem honest_node (b : Builder σ ν) {inner : Interior σ ν}
    (hinner : HonestInside o bytes stop inner) : Honest o bytes stop (node b o inner) := by
  intro pos hpos hle s
  rw [node_eq]
  obtain ⟨hend, hrest⟩ | ⟨byte, rest, hlt, hbyte, hrest⟩ := Cursor.front_window bytes pos stop
  · rw [Nat.min_eq_left hstop] at hend
    simp only [hrest]
    exact .error rfl (Nat.le_refl _) (Nat.le_refl _) hle ⟨hpos, hle, .nothing hend⟩
  · rw [Nat.min_eq_left hstop] at hlt
    simp only [hrest, Cursor.advance_window]
    exact ends_afterTag hstop b hinner hbyte hpos hlt s

/-- **Reading a value is honest**, at whatever depth it starts. -/
theorem honest_valueAt (b : Builder σ ν) (depth : UInt64) :
    Honest o bytes stop (valueAt b o depth) := by
  unfold valueAt
  induction o.levels depth with
  | zero => exact honest_node hstop b (honestInside_refusal depth)
  | succ levels ih => exact honest_node hstop b (.opened ih)

end

/-- Where a count was accepted, no byte that it announces is missing. What they hold can only be
refused as a text, for not being one. -/
theorem payload_of_count (hstop : stop ≤ bytes.length) {pos n : Nat} (hpos : pos ≤ stop) {s : σ}
    {after : State σ} (hcount : count 1 ⟨window bytes pos stop, s⟩ = .ok n after) :
    (∃ content last, reading (Cursor.take n) after = .ok content last) ∧
      ∀ e last, reading (Cursor.text n) after = .error e last →
        e = .invalidUtf8 after.cursor.pos := by
  obtain ⟨number, k, hok, -, hroom⟩ | ⟨_, herror, -⟩ := count_window hstop hpos 1 s
  · rw [hok] at hcount
    cases hcount
    have htake : Cursor.take number.toNat (window bytes (pos + k) stop) = _ :=
      Cursor.take_window_of_le (by omega)
    refine ⟨⟨_, _, by simp only [reading, htake]; rfl⟩, fun e last htext => ?_⟩
    cases hs : Utf8.decode? ((bytes.drop (pos + k)).take number.toNat) with
    | some content =>
      simp only [reading, Cursor.text, htake, hs] at htext
      cases htext
    | none =>
      simp only [reading, Cursor.text, htake, hs] at htext
      cases htext
      rfl
  · rw [herror] at hcount
    cases hcount

end

end Walk

/-! ## Whole buffers -/

section
variable {bytes : List UInt8} {header : Header} (hparse : Header.parse bytes = .ok header)
include hparse

/-- What a decoding reports is so. Of bytes behind the root value it tells after a walk that has
succeeded, and then the grammar says where the value ends. -/
theorem truthful_of_decodeWith (b : Builder σ ν) (o : Options) (s : σ) {e : DecodeError}
    (h : (decodeWith b o bytes s).1 = .error e) :
    Truthful o bytes header.declared.toNat e := by
  obtain ⟨hfits, rfl⟩ := headerParse_eq_ok_iff.1 hparse
  have hends : Walk.Ends o bytes (declaredSize bytes).toNat headerSize
      (Walk.valueAt b o 0 ⟨Header.region ⟨declaredSize bytes⟩ bytes, s⟩) :=
    Walk.honest_valueAt hfits.2 b 0 headerSize (Nat.le_refl _) hfits.headerSize_le s
  have hne : e ≠ .overflow := fun he => decodeWith_ne_overflow b o bytes s (he ▸ h)
  rw [decodeWith_of_parse hparse] at h
  cases hvalue : Walk.valueAt b o 0 ⟨Header.region ⟨declaredSize bytes⟩ bytes, s⟩ with
  | error e' after =>
    simp only [hvalue] at h
    cases h
    rw [hvalue] at hends
    cases hends with
    | error _ _ _ _ htrue => exact htrue
    | stopped => exact absurd rfl hne
  | ok node after =>
    simp only [hvalue] at h
    split at h
    case isFalse => cases h
    case isTrue hunused =>
      cases h
      rw [region_eq_facing hfits] at hvalue
      obtain ⟨p, tail, hregion, hcursor, t, hs, hnest, -⟩ :=
        (Walk.accepts_valueAt b o 0 ..).1 hvalue
      have hleft : after.cursor.remaining = tail.length :=
        (congrArg Cursor.remaining hcursor).trans (Cursor.remaining_facing ..)
      rw [Bool.and_eq_true, bne_iff_ne, hleft] at hunused
      have hlen := hfits.length_region
      rw [hregion, List.length_append] at hlen
      refine ⟨hunused.1, rfl, by omega, t, p, tail, ⟨hfits, hregion, hs, hnest⟩, ?_⟩
      show headerSize + p.length + after.cursor.remaining = (declaredSize bytes).toNat
      omega

theorem truthful_of_decodeTree {kind : TreeKind α} {o : Options} {e : DecodeError}
    (h : decodeTree kind o bytes = .error e) : Truthful o bytes header.declared.toNat e := by
  refine truthful_of_decodeWith hparse kind.builder o () ?_
  unfold decodeTree at h
  cases hwalk : (decodeWith kind.builder o bytes ()).1 with
  | ok node =>
    rw [hwalk] at h
    cases h
  | error e' =>
    rw [hwalk] at h
    cases h
    rfl

/-- **Reported errors tell the truth about the buffer**, if its header is in order. This holds for
the check, for decoding to values and to JSON, and for decoding with any builder.

What is said of the payloads of texts and bytes is never that they are cut short: wherever in the
region a count is accepted, all that it announces is there. -/
theorem errors_tell_the_truth (o : Options) :
    (∀ e, check o bytes = .error e → Truthful o.strict bytes header.declared.toNat e) ∧
    (∀ e, decode o bytes = .error e → Truthful o bytes header.declared.toNat e) ∧
    (∀ e, decodeJson o bytes = .error e → Truthful o bytes header.declared.toNat e) ∧
    (∀ {σ ν : Type} (b : Builder σ ν) (s : σ) (e : DecodeError),
      (decodeWith b o bytes s).1 = .error e → Truthful o bytes header.declared.toNat e) ∧
    ∀ {σ : Type} (s : σ) (pos n : Nat) (after : Walk.State σ), pos ≤ header.declared.toNat →
      Walk.count 1 ⟨window bytes pos header.declared.toNat, s⟩ = .ok n after →
      (∃ content last, Walk.reading (Cursor.take n) after = .ok content last) ∧
      ∀ e last, Walk.reading (Cursor.text n) after = .error e last →
        e = .invalidUtf8 after.cursor.pos := by
  obtain ⟨hfits, rfl⟩ := headerParse_eq_ok_iff.1 hparse
  refine ⟨fun e h => ?_, fun e h => ?_, fun e h => ?_, fun b s e h => ?_, fun s pos n after h => ?_⟩
  · exact truthful_of_decodeWith hparse .skip o.strict () h
  · exact truthful_of_decodeTree hparse h
  · exact truthful_of_decodeTree hparse h
  · exact truthful_of_decodeWith hparse b o s h
  · exact Walk.payload_of_count hfits.2 h

end

/-- An object of four pairs with seven bytes left for them: the check points at the count. -/
theorem errors_tell_the_truth_pairs :
    let bytes : List UInt8 := [13, 0, 0, 0, 0x0f, 4, 0, 0x00, 0, 0x00, 0, 0x00, 0]
    Header.parse bytes = .ok ⟨13⟩ ∧ check {} bytes = .error (.truncated 5) ∧
      Truthful {} bytes 13 (.truncated 5) := by
  intro bytes
  have hparse : Header.parse bytes = .ok ⟨13⟩ := rfl
  have hcheck : check {} bytes = .error (.truncated 5) := rfl
  exact ⟨hparse, hcheck, (errors_tell_the_truth hparse {}).1 _ hcheck⟩

end WireTree
