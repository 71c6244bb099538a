import Mathlib.Data.List.Forall2
import WireTree.Proofs.Body

/-!
# Append buffers as logs

An append buffer behaves like the plain list of its pending bytes, whatever its chunk size.

* `AppendBuffer.onLog log op` is what an operation does to a plain list of bytes. Writing appends,
  flushing and resetting empty the list, reserving leaves it alone, and a patch overwrites four
  bytes if the list has them.
* `AppendBuffer.trace step s ops` are the outcomes of operations one after the other, each with the
  state behind it. A patch that is refused does not end the run.
* `AppendBuffer.AddressesFit b ops`: in the run of `ops` from `b`, no patch has an address that
  exceeds 64 bits. Capacities are counted without bound, so nothing is asked of them.
* `AppendBuffer.Shows b log`: the bytes of `b` from its start to its end are `log`.

Growth drops what was taken out and moves the rest to the front, so that the start and the end move
together. No outcome tells where they are, since a patch counts from the start.

Results:
* `run_eq_onLog`: an operation has the outcome that it has on the list of pending bytes, and what is
  pending afterwards is the list afterwards.
* **`trace_shows_log`**: so it is with every operation of a run from an empty buffer.
-/

namespace WireTree.AppendBuffer

/-! ## Runs -/

/-- The outcomes of operations one after the other, each with the state that it leaves. -/
def trace {σ : Type} (step : σ → Op → Outcome × σ) : σ → List Op → List (Outcome × σ)
  | _, [] => []
  | s, op :: ops => step s op :: trace step (step s op).2 ops

/-- Carries out an operation on a plain list of bytes. -/
def onLog (log : List UInt8) : Op → Outcome × List UInt8
  | .put i => (.done, log ++ i.encode)
  | .reserve _ => (.done, log)
  | .reset => (.done, [])
  | .flush => (.flushed log, [])
  | .patch offset value =>
    if offset.toNat + 4 ≤ log.length then
      (.done, overwrite log offset.toNat (Width.w32.encode value))
    else (.refused, log)

/-- Whether the address that an operation asks for is a machine word. Only patches ask for one. -/
def Op.AddressFits (b : AppendBuffer) : Op → Prop
  | .patch offset _ => b.start + offset.toNat < 0x1_0000_0000_0000_0000
  | _ => True

/-- Whether that is so for every operation of a run. -/
def AddressesFit (b : AppendBuffer) : List Op → Prop
  | [] => True
  | op :: ops => op.AddressFits b ∧ AddressesFit (b.run op).2 ops

instance (b : AppendBuffer) : (op : Op) → Decidable (op.AddressFits b)
  | .patch offset _ => inferInstanceAs (Decidable (b.start + offset.toNat < _))
  | .put _ | .reserve _ | .reset | .flush => instDecidableTrue

instance decidableAddressesFit : (b : AppendBuffer) → (ops : List Op) →
    Decidable (AddressesFit b ops)
  | _, [] => instDecidableTrue
  | b, op :: ops =>
    have := decidableAddressesFit (b.run op).2 ops
    inferInstanceAs (Decidable (op.AddressFits b ∧ _))

/-- The buffer shows the bytes of `log`: they are what it holds from its start to its end, and both
are positions in its room, in this order. -/
structure Shows (b : AppendBuffer) (log : List UInt8) : Prop where
  length : b.length = log.length
  bytes : (b.written.extract b.start b.written.size).toList = log
  start_le : b.start ≤ b.written.size
  size_le : b.written.size ≤ b.capacity

variable {b : AppendBuffer}

theorem shows_pending (b : AppendBuffer) : Shows b b.pending where
  length := (length_pending b).symm
  bytes := by
    rw [Array.toList_extract, List.extract_eq_take_drop, ← length, ← length_pending, pending,
      List.take_length]
  start_le := b.start_le
  size_le := b.size_le

/-! ## One operation -/

/-- An operation does to a buffer what it does to the list of pending bytes. -/
theorem run_eq_onLog {op : Op} (h : op.AddressFits b) :
    (b.run op).1 = (onLog b.pending op).1 ∧ (b.run op).2.pending = (onLog b.pending op).2 := by
  cases op with
  | put i => exact ⟨rfl, pending_put b i⟩
  | reserve n => exact ⟨rfl, pending_reserve b n⟩
  | reset => exact ⟨rfl, pending_reset b⟩
  | flush => exact ⟨rfl, pending_reset b⟩
  | patch offset value =>
    simp only [onLog, length_pending]
    by_cases hfit : offset.toNat + 4 ≤ b.length
    · obtain ⟨b', hpatch, hpending⟩ := exists_patch b offset value h hfit
      rw [run, hpatch, if_pos hfit]
      exact ⟨rfl, hpending⟩
    · have hstart := b.start_le
      have hend : b.written.size < b.start + offset.toNat + 4 := by
        simp only [length] at hfit
        omega
      rw [run, patch_of_lt value hend, if_neg hfit]
      exact ⟨rfl, rfl⟩

/-! ## Runs from an empty buffer -/

/-- A run has the outcomes that it has on the list of pending bytes, and the buffer shows the list
after every operation. -/
theorem trace_shows {ops : List Op} (hfit : AddressesFit b ops) :
    List.Forall₂ (fun x y => x.1 = y.1 ∧ Shows x.2 y.2) (trace run b ops)
      (trace onLog b.pending ops) := by
  induction ops generalizing b with
  | nil => exact .nil
  | cons op ops ih =>
    obtain ⟨hop, hops⟩ := hfit
    obtain ⟨houtcome, hpending⟩ := run_eq_onLog hop
    rw [trace, trace, ← hpending]
    refine .cons ⟨houtcome, ?_⟩ (ih hops)
    rw [← hpending]
    exact shows_pending _

theorem map_fst_trace {ops : List Op} (hfit : AddressesFit b ops) :
    (trace run b ops).map Prod.fst = (trace onLog b.pending ops).map Prod.fst := by
  rw [← List.forall₂_eq_eq_eq, List.forall₂_map_left_iff, List.forall₂_map_right_iff]
  exact (trace_shows hfit).imp fun _ _ h => h.1

/-- **A buffer refines an append log.** From an empty buffer of any chunk size, and for all
operations of which no patch has an address that exceeds a machine word, every operation has the
outcome that it has on a plain list of bytes, which is empty at first, and behind every operation
the buffer shows the list: their lengths are the same, the list is what is written from the start to
the end, and these are positions in the room of the buffer.

So no outcome depends on the chunk size. -/
theorem trace_shows_log (chunk : Nat) (ops : List Op) (hfit : AddressesFit (empty chunk) ops) :
    Shows (empty chunk) [] ∧
    List.Forall₂ (fun x y => x.1 = y.1 ∧ Shows x.2 y.2) (trace run (empty chunk) ops)
      (trace onLog [] ops) ∧
    ∀ chunk', AddressesFit (empty chunk') ops →
      (trace run (empty chunk') ops).map Prod.fst = (trace run (empty chunk) ops).map Prod.fst := by
  refine ⟨shows_pending (empty chunk), trace_shows hfit, fun chunk' hfit' => ?_⟩
  rw [map_fst_trace hfit, map_fst_trace hfit', pending_empty, pending_empty]

/-- A buffer with room for eight bytes that is patched behind bytes already taken out, grows in the
middle of a number and is patched again: a patch at the front of what is pending is carried out, and
one that goes past the end is refused. Without any room at first the outcomes are the same. -/
theorem trace_shows_log_grown :
    let ops : List Op := [.put (.bytes [1, 2, 3]), .flush, .put (.unsigned .w32 0), .patch 0 5,
      .put (.varint 300), .patch 3 9, .patch 4 9, .reserve 20, .flush]
    let outcomes : List Outcome := [.done, .flushed [1, 2, 3], .done, .done, .done, .done, .refused,
      .done, .flushed [5, 0, 0, 9, 0, 0, 0]]
    (AddressesFit (empty 8) ops ∧ AddressesFit (empty 0) ops) ∧
    (trace run (empty 8) ops).map Prod.fst = outcomes ∧
    (trace run (empty 0) ops).map Prod.fst = outcomes := by
  intro ops outcomes
  have hfit₈ : AddressesFit (empty 8) ops := by decide
  have hfit₀ : AddressesFit (empty 0) ops := by decide
  have houtcomes : (trace run (empty 8) ops).map Prod.fst = outcomes := by decide
  obtain ⟨-, -, hchunk⟩ := trace_shows_log 8 ops hfit₈
  exact ⟨⟨hfit₈, hfit₀⟩, houtcomes, (hchunk 0 hfit₀).trans houtcomes⟩

end WireTree.AppendBuffer
