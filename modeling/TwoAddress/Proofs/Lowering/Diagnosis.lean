/-
# `Proofs.Lowering.Diagnosis` — the error of a refused block

The error of a block is its first fault, read off the places of the block
(`Carry.FaultAt`). For broken chains this says who is blamed: the offender is
the place of the fault, and the producer is the nearest link before it. Two of
the ways in which a tracker can break never occur: no link is ever met that
would overwrite a pending carry, and no carry is left over at the end.
-/
import TwoAddress.Proofs.Carry.Report
import TwoAddress.Proofs.Lowering.Acceptance

namespace TwoAddress

namespace Carry

variable {t : Target} {block : List Instruction} {i : Nat} {b : Break}

/-- The causes for which a block can be refused. -/
def Cause.Reachable : Cause → Prop
  | clobbered .. | noProducer _ | wrongFamily .. => True
  | overwritten .. | neverConsumed _ => False

/-- A fault of a chain blames its own place, and as producer a place before. -/
theorem FaultAt.blame (h : FaultAt t block i (.carry b)) :
    b.offender = i ∧ (∀ p, b.producer = some p → p < i) ∧ b.cause.Reachable := by
  have producer_lt {p : Pending} (hleft : LeftBefore t block i p) :
      ∀ j, some p.producer = some j → j < i := by
    obtain ⟨l, group, hn, _⟩ := hleft
    rintro j hj
    cases hj
    exact hn.before
  cases h with
  | refused hg =>
      obtain ⟨ins, _, hlow⟩ := Option.map_eq_some_iff.mp hg
      exact nomatch t.chainless_lower ins _ hlow
  | noProducer => exact ⟨rfl, fun _ hp => (nomatch hp), trivial⟩
  | wrongFamily _ _ hleft => exact ⟨rfl, producer_lt hleft, trivial⟩
  | prepared _ _ hleft => exact ⟨rfl, producer_lt hleft, trivial⟩
  | clobbered _ _ hleft => exact ⟨rfl, producer_lt hleft, trivial⟩

end Carry

namespace Target

open Carry

variable {t : Target} {block : List Instruction}

/-- A block within the limit that is refused has a first fault, which is its
error. -/
theorem first_fault_of_lowerBlock {e : Error} (hfits : block.length ≤ t.maxBlockLen.toNat)
    (h : t.lowerBlock block = .error e) :
    ∃ i, FaultAt t block i e ∧ ∀ k < i, ∀ e', ¬ FaultAt t block k e' := by
  by_cases hex : ∃ i e', FaultAt t block i e'
  · obtain ⟨i, e', hf⟩ := hex
    obtain ⟨j, e'', hf', hfirst⟩ := exists_first_fault hf
    have he := h.symm.trans (lowerBlock_of_fault hfits hf' hfirst)
    cases he
    exact ⟨j, hf', hfirst⟩
  · have hclean : ∀ i e', ¬ FaultAt t block i e' := by
      intro i e' hf
      exact hex ⟨i, e', hf⟩
    obtain ⟨groups, _, hok⟩ := lowerBlock_of_clean hfits hclean
    exact nomatch h.symm.trans hok

theorem length_le_of_carry {b : Break} (h : t.lowerBlock block = .error (.carry b)) :
    block.length ≤ t.maxBlockLen.toNat := by
  refine Nat.le_of_not_lt ?_
  intro hlt
  cases h.symm.trans (lowerBlock_of_lt hlt)

/-- A block within the limit is refused with an error exactly if that error is
its first fault. A broken chain blames a place of the block and, as producer, a
place before that one. No block is ever found to overwrite a pending carry with
another, or to leave one over at its end. -/
theorem lowerBlock_diagnosis (t : Target) (block : List Instruction) :
    (block.length ≤ t.maxBlockLen.toNat → ∀ e, t.lowerBlock block = .error e ↔
      ∃ i, FaultAt t block i e ∧ ∀ k < i, ∀ e', ¬ FaultAt t block k e') ∧
    (∀ b, t.lowerBlock block = .error (.carry b) →
      (∀ p, b.producer = some p → p < b.offender) ∧ b.offender < block.length) ∧
    (∀ b, .chainBroken b ∈ (t.lowerBlockTraced block).events →
      (∀ ins source, b.cause ≠ .overwritten ins source) ∧
        ∀ source, b.cause ≠ .neverConsumed source) := by
  have blame {b : Break} (h : t.lowerBlock block = .error (.carry b)) :
      b.offender < block.length ∧ (∀ p, b.producer = some p → p < b.offender) ∧
        b.cause.Reachable := by
    obtain ⟨i, hf, _⟩ := first_fault_of_lowerBlock (length_le_of_carry h) h
    obtain ⟨rfl, hprod, hcause⟩ := hf.blame
    exact ⟨hf.lt_length, hprod, hcause⟩
  refine ⟨?_, ?_, ?_⟩
  · intro hfits e
    constructor
    · exact first_fault_of_lowerBlock hfits
    · rintro ⟨i, hf, hfirst⟩
      exact lowerBlock_of_fault hfits hf hfirst
  · intro b h
    obtain ⟨hlt, hprod, _⟩ := blame h
    exact ⟨hprod, hlt⟩
  · intro b h
    obtain ⟨_, _, hcause⟩ := blame (outcome_of_chainBroken h)
    constructor
    · intro ins source he
      rw [he] at hcause
      exact hcause
    · intro source he
      rw [he] at hcause
      exact hcause

/-- Without address computation a sum inside a chain is copied first, and the
copy is to blame. -/
theorem lowerBlock_diagnosis_sum_in_chain :
    let block : List Instruction :=
      [.binary .add (.reg ⟨0⟩) (.reg ⟨3⟩), .ternary .add3 (.reg ⟨6⟩) (.reg ⟨7⟩) (.reg ⟨8⟩),
        .binary .adc (.reg ⟨1⟩) (.reg ⟨4⟩)]
    block.length ≤ minimal.maxBlockLen.toNat ∧
      ∃ i, FaultAt minimal block i (.carry ⟨some 0, 1, .clobbered
          (.binary .mov (.reg ⟨6⟩) (.reg ⟨7⟩)) (.binary .add (.reg ⟨0⟩) (.reg ⟨3⟩))⟩) ∧
        ∀ k < i, ∀ e', ¬ FaultAt minimal block k e' := by
  refine ⟨by decide, ?_⟩
  exact ((lowerBlock_diagnosis minimal _).1 (by decide) _).mp rfl

end Target

end TwoAddress
