/-
# `Proofs.Carry.Demand` — what the scan for needed carries finds

The scan goes through a block once, from its end, and keeps a single bit. What it
writes down for an instruction is that bit before the instruction itself is looked
at. So the entry of a place speaks of the instructions behind it alone, and says
that a carry is awaited there (`getElem?_demand_eq_true_iff`).

A part that is put behind a block comes into the scan as the bit it starts from.
If that is not set, nothing changes (`demand_append`); if it is, it is the entry of
the last place of the block, which was not set before (`take_demand_append_iff`).
-/
import TwoAddress.Proofs.Carry.Chain

namespace TwoAddress.Carry

variable {block back : List Instruction} {i : Nat}

/-! ## The entry of a place -/

theorem getElem?_demand (hi : i < block.length) :
    (demand block)[i]? = some (demanded (block.drop (i + 1))) := by
  induction block generalizing i with
  | nil => exact absurd hi (Nat.not_lt_zero i)
  | cons ins rest ih =>
      cases i with
      | zero => rfl
      | succ i =>
          rw [demand_cons, List.getElem?_cons_succ, List.drop_succ_cons]
          exact ih (Nat.lt_of_succ_lt_succ hi)

/-- A carry is needed after a place exactly if it is awaited from the next place on.
Past the end there is no entry, and nothing is awaited either. -/
theorem getElem?_demand_eq_true_iff (block : List Instruction) (i : Nat) :
    (demand block)[i]? = some true ↔ Awaited block (i + 1) := by
  rcases Nat.lt_or_ge i block.length with hi | hi
  · rw [getElem?_demand hi, Option.some.injEq, demanded_drop_iff]
  · have hnone : (demand block)[i]? = none := by
      rw [List.getElem?_eq_none_iff, length_demand]
      exact hi
    have hna : ¬ Awaited block (i + 1) := not_awaited_of_length_le (Nat.le_succ_of_le hi)
    simp [hnone, hna]

theorem awaited_iff :
    Awaited block i ↔ ∃ c ins, i ≤ c ∧ block[c]? = some ins ∧ ins.ReadsCarry ∧
      ∀ k, i ≤ k → k < c → linkAt block k = none := by
  constructor
  · rintro ⟨c, l, hic, hlink, hrole, hbetween⟩
    obtain ⟨ins, hins, hof⟩ := linkAt_eq_some_iff.mp hlink
    exact ⟨c, ins, hic, hins, readsCarry_iff.mpr ⟨l, hof, hrole⟩, hbetween⟩
  · rintro ⟨c, ins, hic, hins, hreads, hbetween⟩
    obtain ⟨l, hof, hrole⟩ := readsCarry_iff.mp hreads
    exact ⟨c, l, hic, linkAt_eq_some_iff.mpr ⟨ins, hins, hof⟩, hrole, hbetween⟩

/-! ## A part put behind a block -/

theorem demanded_eq_false_iff (back : List Instruction) :
    demanded back = false ↔ ¬ Awaited back 0 := by
  rw [← demanded_drop_iff, List.drop_zero, Bool.not_eq_true]

theorem demanded_append (hback : demanded back = false) (front : List Instruction) :
    demanded (front ++ back) = demanded front := by
  induction front with
  | nil => exact hback
  | cons ins rest ih => rw [List.cons_append, demanded_cons, demanded_cons, ih]

theorem demand_append (hback : demanded back = false) (front : List Instruction) :
    demand (front ++ back) = demand front ++ demand back := by
  induction front with
  | nil => rfl
  | cons ins rest ih =>
      rw [List.cons_append, demand_cons, demand_cons, demanded_append hback, ih, List.cons_append]

theorem getElem?_demand_last (init : List Instruction) (last : Instruction)
    (back : List Instruction) :
    (demand (init ++ [last] ++ back))[init.length]? = some (demanded back) := by
  rw [getElem?_demand (by simp)]
  exact congrArg (some ∘ demanded) (List.drop_left' (by simp))

/-- What is put behind a block leaves the entries of the block as they are exactly
if it needs no carry from there, unless there are no entries. -/
theorem take_demand_append_iff (front back : List Instruction) :
    (demand (front ++ back)).take front.length = demand front ↔
      front = [] ∨ demanded back = false := by
  constructor
  · intro hsame
    rcases List.eq_nil_or_concat front with hnil | ⟨init, last, rfl⟩
    · exact .inl hnil
    · rw [List.concat_eq_append] at hsame
      have halone : (demand (init ++ [last]))[init.length]? = some false := by
        simpa using getElem?_demand_last init last []
      have hentry : some (demanded back) = some false := by
        rw [← getElem?_demand_last init last back, ← halone, ← hsame,
          List.getElem?_take_of_lt (by simp)]
      exact .inr (Option.some.inj hentry)
  · rintro (rfl | hback)
    · rfl
    · rw [demand_append hback, List.take_left' (length_demand front)]

/-- The scan has an entry for each instruction, and it is set exactly if a later
instruction reads a carry and no link stands between the two. So what is put behind
a block leaves its entries as they are exactly if the first link there, if any,
reads no carry, or the block has no entries. -/
theorem demand_looks_ahead (block : List Instruction) :
    (demand block).length = block.length ∧
    (∀ i, (demand block)[i]? = some true ↔
      ∃ c ins, i < c ∧ block[c]? = some ins ∧ ins.ReadsCarry ∧
        ∀ k, i < k → k < c → linkAt block k = none) ∧
    ∀ back, (demand (block ++ back)).take block.length = demand block ↔
      block = [] ∨ ¬ Awaited back 0 := by
  refine ⟨length_demand block, ?_, ?_⟩
  · intro i
    exact (getElem?_demand_eq_true_iff block i).trans awaited_iff
  · intro back
    rw [take_demand_append_iff, demanded_eq_false_iff]

/-- The first instruction reads a carry itself, but the next link starts a new chain, so
what it leaves is not needed. -/
example :
    demand
      [.ternary .adc3 (.reg ⟨1⟩) (.reg ⟨1⟩) (.reg ⟨4⟩), .binary .add (.reg ⟨0⟩) (.reg ⟨3⟩),
        .ternary .add3 (.reg ⟨6⟩) (.reg ⟨7⟩) (.reg ⟨8⟩), .binary .adc (.reg ⟨1⟩) (.reg ⟨4⟩),
        .binary .xor (.reg ⟨0⟩) (.reg ⟨0⟩)] =
      [false, true, true, false, false] := rfl

end TwoAddress.Carry
