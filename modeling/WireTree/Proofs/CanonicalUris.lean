import WireTree.Proofs.DataUris
import Mathlib.Data.Nat.Digits.Lemmas

/-!
# Bytes and their URIs, one for one

What base 64 is, said without groups, and that every run of bytes has exactly one URI.

* `Base64.number base ds` is the number with the digits `ds`, of which the first is the highest.
* `Base64.Spells digits pads bytes`: the digits are of the alphabet, and stand for the same number
  as the bytes, with two zero bits behind these for each pad character. The bits are as many.

The number of bytes tells how many digits and pad characters there are. So all that is left to
choose are the digits, and the number decides about these.

Results:
* `spells_encode`, `Spells.unique`: encoding spells the bytes, and nothing else spells them.
* `decode?_eq_some_iff`: decoding takes what spells the bytes.
* **`DataUri.uris_one_for_one`**: bytes and URIs determine each other, and the URIs are the texts of
  the lead, digits that spell the bytes, and their pad characters.
-/

namespace WireTree

namespace Base64

/-! ## Digits -/

theorem digitChar_mem {n : Nat} (h : n < 64) : digitChar n ∈ alphabet := by
  rw [alphabet_eq]
  exact List.mem_map_of_mem (List.mem_range.2 h)

theorem nodup_alphabet : alphabet.Nodup := by
  rw [alphabet_eq]
  refine List.nodup_range.map_on fun m hm n hn h => ?_
  have hvalue := congrArg digitValue? h
  rw [digitValue?_digitChar (List.mem_range.1 hm), digitValue?_digitChar (List.mem_range.1 hn)]
    at hvalue
  exact Option.some.inj hvalue

/-- The value of a digit is its place in the alphabet. -/
theorem idxOf_digitChar {n : Nat} (h : n < 64) : alphabet.idxOf (digitChar n) = n := by
  have hlength : n < alphabet.length := h
  have hget : alphabet[n] = digitChar n := by
    simp only [alphabet_eq, List.getElem_map, List.getElem_range]
  rw [← hget]
  exact nodup_alphabet.idxOf_getElem n hlength

theorem idxOf_lt {c : Char} (h : c ∈ alphabet) : alphabet.idxOf c < 64 :=
  List.idxOf_lt_length_of_mem h

/-- A digit is settled by its place in the alphabet. -/
theorem digitChar_idxOf {c : Char} (h : c ∈ alphabet) : digitChar (alphabet.idxOf c) = c := by
  rw [alphabet_eq] at h
  obtain ⟨n, hn, rfl⟩ := List.mem_map.1 h
  rw [idxOf_digitChar (List.mem_range.1 hn)]

theorem map_digitChar_map_idxOf {cs : List Char} (h : ∀ c ∈ cs, c ∈ alphabet) :
    (cs.map alphabet.idxOf).map digitChar = cs := by
  rw [List.map_map]
  exact (List.map_congr_left fun c hc => digitChar_idxOf (h c hc)).trans (List.map_id cs)

/-- The number with the digits `ds`, of which the first is the highest. -/
def number (base : Nat) (ds : List Nat) : Nat :=
  Nat.ofDigits base ds.reverse

theorem number_nil (base : Nat) : number base [] = 0 :=
  rfl

theorem number_cons (base d : Nat) (ds : List Nat) :
    number base (d :: ds) = d * base ^ ds.length + number base ds := by
  rw [number, List.reverse_cons, Nat.ofDigits_append, Nat.ofDigits_singleton, List.length_reverse,
    number]
  ring

/-- Digits in the base are settled by their number. -/
theorem number_inj {base : Nat} {ds es : List Nat} (hbase : 1 < base)
    (hlength : ds.length = es.length) (hd : ∀ d ∈ ds, d < base) (he : ∀ e ∈ es, e < base)
    (h : number base ds = number base es) : ds = es := by
  have hreverse : ds.reverse = es.reverse := by
    refine Nat.ofDigits_inj_of_len_eq hbase ?_ ?_ ?_ h
    · rw [List.length_reverse, List.length_reverse, hlength]
    · simpa using hd
    · simpa using he
  exact List.reverse_injective hreverse

/-- The digits stand for the bytes, with two zero bits behind them for each pad character. -/
structure Spells (digits : List Char) (pads : Nat) (bytes : List UInt8) : Prop where
  digit : ∀ c ∈ digits, c ∈ alphabet
  pads_le : pads ≤ 2
  bits : 6 * digits.length = 8 * bytes.length + 2 * pads
  number : number 64 (digits.map alphabet.idxOf) = number 256 (bytes.map UInt8.toNat) * 4 ^ pads

namespace Spells

variable {digits digits' : List Char} {pads pads' : Nat} {bytes : List UInt8}

theorem pow_length (h : Spells digits pads bytes) :
    64 ^ digits.length = 256 ^ bytes.length * 4 ^ pads := by
  have hbits := h.bits
  rw [show 64 = 4 ^ 3 by rfl, show 256 = 4 ^ 4 by rfl, ← pow_mul, ← pow_mul, ← pow_add]
  congr 1
  omega

/-- Four digits in front stand for three bytes in front. -/
theorem group (h : Spells digits pads bytes) {w x y z : Nat} {a b c : UInt8} (hw : w < 64)
    (hx : x < 64) (hy : y < 64) (hz : z < 64)
    (hgroup : w * 262144 + x * 4096 + y * 64 + z = a.toNat * 65536 + b.toNat * 256 + c.toNat) :
    Spells (digitChar w :: digitChar x :: digitChar y :: digitChar z :: digits) pads
      (a :: b :: c :: bytes) := by
  refine ⟨?_, h.pads_le, ?_, ?_⟩
  · simp only [List.forall_mem_cons]
    exact ⟨digitChar_mem hw, digitChar_mem hx, digitChar_mem hy, digitChar_mem hz, h.digit⟩
  · have hbits := h.bits
    simp only [List.length_cons]
    omega
  · simp only [List.map_cons, number_cons, List.length_cons, List.length_map, idxOf_digitChar hw,
      idxOf_digitChar hx, idxOf_digitChar hy, idxOf_digitChar hz, pow_succ]
    calc _ = (w * 262144 + x * 4096 + y * 64 + z) * 64 ^ digits.length +
          Base64.number 64 (digits.map alphabet.idxOf) := by ring
      _ = (a.toNat * 65536 + b.toNat * 256 + c.toNat) * (256 ^ bytes.length * 4 ^ pads) +
          Base64.number 256 (bytes.map UInt8.toNat) * 4 ^ pads := by
        rw [hgroup, h.pow_length, h.number]
      _ = _ := by ring

/-- The bytes settle how many digits and pad characters there are, and which digits. -/
theorem unique (h : Spells digits pads bytes) (h' : Spells digits' pads' bytes) :
    digits = digits' ∧ pads = pads' := by
  have hbits := h.bits
  have hbits' := h'.bits
  have hpads := h.pads_le
  have hpads' := h'.pads_le
  obtain rfl : pads = pads' := by omega
  have hlength : (digits.map alphabet.idxOf).length = (digits'.map alphabet.idxOf).length := by
    rw [List.length_map, List.length_map]
    omega
  have hvalue {cs : List Char} (hcs : ∀ c ∈ cs, c ∈ alphabet) :
      ∀ d ∈ cs.map alphabet.idxOf, d < 64 := by
    simpa using fun c hc => idxOf_lt (hcs c hc)
  have hplaces := number_inj (by decide) hlength (hvalue h.digit) (hvalue h'.digit)
    (h.number.trans h'.number.symm)
  have hdigits := congrArg (List.map digitChar) hplaces
  rw [map_digitChar_map_idxOf h.digit, map_digitChar_map_idxOf h'.digit] at hdigits
  exact ⟨hdigits, rfl⟩

end Spells

/-! ## Encoding and decoding -/

/-- Encoding spells the bytes. -/
theorem spells_encode (bytes : List UInt8) :
    ∃ digits pads, encode bytes = digits ++ List.replicate pads '=' ∧ Spells digits pads bytes := by
  fun_induction encode bytes with
  | case1 => exact ⟨[], 0, rfl, by simp, by omega, rfl, rfl⟩
  | case2 a =>
    have ha := a.toNat_lt
    refine ⟨[digitChar (a.toNat / 4), digitChar (a.toNat % 4 * 16)], 2, rfl, ?_, by omega, rfl, ?_⟩
    · simp only [List.forall_mem_cons]
      exact ⟨digitChar_mem (by omega), digitChar_mem (by omega), by simp⟩
    · simp only [List.map_cons, List.map_nil, number_cons, number_nil, List.length_cons,
        List.length_nil]
      rw [idxOf_digitChar (by omega), idxOf_digitChar (by omega)]
      omega
  | case3 a b =>
    have ha := a.toNat_lt
    have hb := b.toNat_lt
    refine ⟨[digitChar (a.toNat / 4), digitChar (a.toNat % 4 * 16 + b.toNat / 16),
      digitChar (b.toNat % 16 * 4)], 1, rfl, ?_, by omega, rfl, ?_⟩
    · simp only [List.forall_mem_cons]
      exact ⟨digitChar_mem (by omega), digitChar_mem (by omega), digitChar_mem (by omega), by simp⟩
    · simp only [List.map_cons, List.map_nil, number_cons, number_nil, List.length_cons,
        List.length_nil]
      rw [idxOf_digitChar (by omega), idxOf_digitChar (by omega), idxOf_digitChar (by omega)]
      omega
  | case4 a b c rest ih =>
    have ha := a.toNat_lt
    have hb := b.toNat_lt
    have hc := c.toNat_lt
    obtain ⟨digits, pads, hencode, h⟩ := ih
    refine ⟨_, pads, ?_, h.group (w := a.toNat / 4) (x := a.toNat % 4 * 16 + b.toNat / 16)
      (y := b.toNat % 16 * 4 + c.toNat / 64) (z := c.toNat % 64) (by omega) (by omega) (by omega)
      (by omega) (by omega)⟩
    rw [hencode]
    rfl

/-- Decoding takes what spells the bytes, and nothing else. -/
theorem decode?_eq_some_iff {cs : List Char} {bytes : List UInt8} :
    decode? cs = some bytes ↔
      ∃ digits pads, cs = digits ++ List.replicate pads '=' ∧ Spells digits pads bytes := by
  obtain ⟨digits, pads, hencode, hspells⟩ := spells_encode bytes
  constructor
  · intro h
    rw [← encode_of_decode? h]
    exact ⟨digits, pads, hencode, hspells⟩
  · rintro ⟨digits', pads', rfl, hspells'⟩
    obtain ⟨rfl, rfl⟩ := hspells'.unique hspells
    rw [← hencode]
    exact decode?_encode bytes

end Base64

namespace DataUri

/-- The text is the lead, digits that stand for the bytes, and the pad characters of these. -/
def Spells (s : String) (bytes : List UInt8) : Prop :=
  ∃ digits pads, s.toList = lead.toList ++ (digits ++ List.replicate pads '=') ∧
    Base64.Spells digits pads bytes

theorem decode?_eq_some_iff_spells {s : String} {bytes : List UInt8} :
    decode? s = some bytes ↔ Spells s bytes := by
  have hlead : lead.length = lead.toList.length := rfl
  constructor
  · intro h
    unfold decode? at h
    split at h
    · rename_i hstart
      obtain ⟨digits, pads, hrest, hspells⟩ := Base64.decode?_eq_some_iff.1 h
      refine ⟨digits, pads, ?_, hspells⟩
      rw [← hrest, ← hstart, List.take_append_drop]
    · cases h
  · rintro ⟨digits, pads, hs, hspells⟩
    rw [decode?, hs, hlead, List.take_left, if_pos rfl, List.drop_left]
    exact Base64.decode?_eq_some_iff.2 ⟨digits, pads, rfl, hspells⟩

/-- **Bytes and URIs determine each other.**

* The URI of bytes is taken for these bytes.
* A text that is taken for bytes is their URI, so no two texts are taken for the same bytes.
* The texts that are taken for bytes are the lead, digits of the alphabet that stand for the same
  number as the bytes and two zero bits behind them for each pad character, and the pad characters,
  of which there are at most two. -/
theorem uris_one_for_one :
    (∀ bytes : List UInt8, decode? (encode bytes) = some bytes) ∧
    ∀ (s : String) (bytes : List UInt8),
      (decode? s = some bytes → s = encode bytes) ∧
      (decode? s = some bytes ↔ Spells s bytes) :=
  ⟨decode?_encode, fun _ _ => ⟨fun h => (encode_of_decode? h).symm, decode?_eq_some_iff_spells⟩⟩

/-- Two bytes have a URI with one pad character. Without it, with another one, with a bit left over,
with a blank, with a sign of another alphabet, and with a lead in capitals, the text spells no bytes
at all. -/
theorem uris_one_for_one_pair :
    let uri := "data:application/octet-stream;base64,AQE="
    let others := ["data:application/octet-stream;base64,AQE",
      "data:application/octet-stream;base64,AQE==", "data:application/octet-stream;base64,AQF=",
      "data:application/octet-stream;base64, AQE=", "data:application/octet-stream;base64,AQ_=",
      "DATA:application/octet-stream;base64,AQE="]
    decode? uri = some [1, 1] ∧ uri = encode [1, 1] ∧ Spells uri [1, 1] ∧
      ∀ s ∈ others, ∀ bytes, ¬ Spells s bytes := by
  intro uri others
  have huri : decode? uri = some [1, 1] := by decide
  obtain ⟨-, hall⟩ := uris_one_for_one
  obtain ⟨hencode, hspells⟩ := hall uri [1, 1]
  have hnone : ∀ s ∈ others, decode? s = none := by decide
  refine ⟨huri, hencode huri, hspells.1 huri, fun s hs bytes h => ?_⟩
  have hsome := (hall s bytes).2.2 h
  rw [hnone s hs] at hsome
  cases hsome

end DataUri

end WireTree
