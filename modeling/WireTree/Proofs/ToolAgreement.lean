import WireTree.Tools
import WireTree.Proofs.UnknownTags

/-!
# Agreement of the tools

Unpacking and inspecting a buffer, next to each other and to the decoder.

* Unpacking checks the buffer before it decodes it, unless unknown tags are read as nulls. Where it
  checks, both walk over the buffer under the strict policy. So the check refuses nothing that would
  have been unpacked, and never gives another reason.
* Inspecting checks the buffer under the strict policy in any case. So it tells what unpacking does
  under the strict policy, and under the lenient one wherever it does not name an unknown tag.

Results:
* **`unpack_eq`**: unpacking is decoding to a JSON tree and printing it.
* `check_unpack_strict`, `unpack_lenient`: what unpacking does under the strict policy, and that it
  does the same under the lenient one where no unknown tag is refused.
* **`tools_agree`**: what inspecting says of unpacking, under each policy.
-/

namespace WireTree

theorem Options.strict_of_reject {o : Options} (h : o.unknownTags = .reject) : o.strict = o := by
  rw [strict, ← h]

theorem Options.lenient_of_null {o : Options} (h : o.unknownTags = .null) : o.lenient = o := by
  rw [lenient, ← h]

variable {o : Options} {bytes : List UInt8}

/-- **Unpacking is decoding to a JSON tree and printing it.** The check that comes first under the
strict policy changes nothing. -/
theorem unpack_eq (o : Options) (bytes : List UInt8) :
    unpack o bytes = ((decodeJson o bytes).map Json.pretty).mapError ToolError.decode := by
  rw [unpack]
  by_cases h : o.unknownTags = .reject
  · have hcheck : outcome (decodeJson o bytes) = check o bytes := by
      conv_lhs => rw [← Options.strict_of_reject h]
      exact outcome_decodeTree .json o bytes
    rw [if_pos h, ← hcheck]
    cases decodeJson o bytes <;> rfl
  · rw [if_neg h]
    cases decodeJson o bytes <;> rfl

/-- Under the strict policy, a buffer that passes the check is unpacked, and any other is refused
for the same reason. -/
theorem check_unpack_strict (o : Options) (bytes : List UInt8) :
    (check o bytes = .ok () ∧ ∃ text, unpack o.strict bytes = .ok text) ∨
      ∃ e, check o bytes = .error e ∧ unpack o.strict bytes = .error (.decode e) := by
  rw [unpack_eq, ← outcome_decodeTree .json o bytes, ← decodeJson]
  cases decodeJson o.strict bytes with
  | ok j => exact .inl ⟨rfl, j.pretty, rfl⟩
  | error e => exact .inr ⟨e, rfl, rfl⟩

/-- What is not refused for an unknown tag is unpacked alike under both policies. -/
theorem unpack_lenient (h : ∀ tag p, check o bytes ≠ .error (.unknownTag tag p)) :
    unpack o.lenient bytes = unpack o.strict bytes := by
  rw [unpack_eq, unpack_eq, decodeJson, decodeTree, decodeWith_lenient_of_ne h, decodeJson,
    decodeTree]

/-- **The tools agree with each other and with the decoder.**

* Unpacking succeeds exactly if decoding to a JSON tree does, and gives the printed tree. Otherwise
  it fails with the same error.
* Under the strict policy, a buffer is found valid exactly if it is unpacked, and the errors are the
  same.
* Under the lenient policy, a buffer that is found valid is unpacked to the same text as under the
  strict one. A buffer that is refused for anything but an unknown tag is not unpacked, for the same
  reason. -/
theorem tools_agree (o : Options) (bytes : List UInt8) :
    unpack o bytes = ((decodeJson o bytes).map Json.pretty).mapError ToolError.decode ∧
    (o.unknownTags = .reject →
      (unpack o bytes).map (fun _ => ()) = (inspect o bytes).result.mapError ToolError.decode) ∧
    (o.unknownTags = .null →
      ((inspect o bytes).isValid = true →
        ∃ text, unpack o bytes = .ok text ∧ unpack o.strict bytes = .ok text) ∧
      ∀ e, (inspect o bytes).result = .error e → (∀ tag p, e ≠ .unknownTag tag p) →
        unpack o bytes = .error (.decode e)) := by
  have hresult : (inspect o bytes).result = check o bytes := rfl
  rw [Inspection.isValid, hresult]
  refine ⟨unpack_eq o bytes, fun hreject => ?_, fun hnull => ?_⟩
  · have hcases := check_unpack_strict o bytes
    rw [Options.strict_of_reject hreject] at hcases
    obtain ⟨hcheck, text, htext⟩ | ⟨e, hcheck, herror⟩ := hcases
    · rw [hcheck, htext]
      rfl
    · rw [hcheck, herror]
      rfl
  · have hsame : (∀ tag p, check o bytes ≠ .error (.unknownTag tag p)) →
        unpack o bytes = unpack o.strict bytes := by
      intro hne
      conv_lhs => rw [← Options.lenient_of_null hnull]
      exact unpack_lenient hne
    obtain ⟨hcheck, text, htext⟩ | ⟨e, hcheck, herror⟩ := check_unpack_strict o bytes
    · rw [hcheck] at hsame ⊢
      refine ⟨fun _ => ⟨text, ?_, htext⟩, nofun⟩
      rw [hsame nofun, htext]
    · rw [hcheck] at hsame ⊢
      refine ⟨nofun, fun e' he hne => ?_⟩
      cases he
      rw [hsame fun tag p h => hne tag p (Except.error.inj h), herror]

/-- Three buffers under the lenient policy. An array of one null is valid and unpacked. One that
lacks its second element is refused and not unpacked. One whose element has an unknown tag is
refused for that tag, and unpacked all the same; under the strict policy, it is not. -/
theorem tools_agree_lenient :
    let o : Options := { unknownTags := .null }
    let whole : List UInt8 := [7, 0, 0, 0, 0x0e, 1, 0x00]
    let cut : List UInt8 := [7, 0, 0, 0, 0x0e, 2, 0x00]
    let unknown : List UInt8 := [7, 0, 0, 0, 0x0e, 1, 0x42]
    ((inspect o whole).isValid = true ∧
      ∃ text, unpack o whole = .ok text ∧ unpack o.strict whole = .ok text) ∧
    ((inspect o cut).result = .error (.truncated 5) ∧
      unpack o cut = .error (.decode (.truncated 5))) ∧
    (inspect o unknown).result = .error (.unknownTag 0x42 6) ∧
    unpack o unknown = .ok (Json.array [.null]).pretty ∧
    (unpack o.strict unknown).map (fun _ => ()) = .error (.decode (.unknownTag 0x42 6)) := by
  intro o whole cut unknown
  have hvalid : (inspect o whole).isValid = true := rfl
  have hcut : (inspect o cut).result = .error (.truncated 5) := rfl
  have hunknown : (inspect o unknown).result = .error (.unknownTag 0x42 6) := rfl
  obtain ⟨-, -, hwhole⟩ := tools_agree o whole
  obtain ⟨-, -, hrefused⟩ := tools_agree o cut
  obtain ⟨hprinted, -, -⟩ := tools_agree o unknown
  obtain ⟨-, hstrict, -⟩ := tools_agree o.strict unknown
  have hjson : decodeJson o unknown = .ok (.array [.null]) := rfl
  refine ⟨⟨hvalid, (hwhole rfl).1 hvalid⟩, ⟨hcut, (hrefused rfl).2 _ hcut nofun⟩, hunknown, ?_, ?_⟩
  · rw [hprinted, hjson]
    rfl
  · rw [hstrict rfl]
    rfl

end WireTree
