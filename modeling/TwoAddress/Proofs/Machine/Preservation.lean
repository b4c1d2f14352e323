/-
# `Proofs.Machine.Preservation` — lowered code means what its block means

A block and its lowered code are run side by side, the code a group at a time.
Before each place the two states agree outside the scratch register, and if a
carry is awaited there, and some link stands before, both hold the same one
(`Related`). The carry of a place is thus related only while somebody is going
to read it. That is as much as lowering preserves, and by the condition under
which a block is accepted (`Carry.AllSupplied`) it is enough.
-/
import TwoAddress.Proofs.Lowering.Acceptance
import TwoAddress.Proofs.Machine.Simulation

namespace TwoAddress

namespace Machine

open Carry

variable {m : Meaning} {kv kt : CarryPolicy} {t : Target} {block : List Instruction}
  {groups : List (List Instruction)} {i : Nat} {v w : State} {ins : Instruction}
  {group : List Instruction}

/-- What holds of the states of the two machines before place `i`. -/
structure Related (t : Target) (block : List Instruction) (i : Nat) (v w : State) : Prop where
  agree : AgreeOff t.scratch v w
  carry : ∀ j l, Nearest block i j l → Awaited block i →
    ∃ c, v.carry = some c ∧ w.carry = some c

theorem related_start (s : State) : Related t block 0 s s := by
  refine ⟨.refl s, ?_⟩
  intro j l hn _
  exact absurd hn.before (Nat.not_lt_zero j)

theorem Related.readable (h : Related t block i v w) (hs : AllSupplied block groups)
    (hins : block[i]? = some ins) (hg : groups[i]? = some group) {l : Link}
    (hl : Link.of? ins = some l) (hrole : l.role = .consume) :
    (∃ c, v.carry = some c ∧ w.carry = some c) ∧ ∃ g, group = [g] := by
  have hat : linkAt block i = some l := (linkAt_of_getElem? hins).trans hl
  obtain ⟨⟨j, l', hn, _⟩, g, hone⟩ := hs i l hat hrole
  refine ⟨h.carry j l' hn ((awaited_of_link hat).mpr hrole), g, ?_⟩
  exact Option.some.inj (hg.symm.trans hone)

/-- One place is passed on both machines, and the states stay related. -/
theorem Related.step (h : Related t block i v w) (hs : AllSupplied block groups)
    (hins : block[i]? = some ins) (hg : groups[i]? = some group) (hlow : t.lower ins = .ok group)
    (havoid : ∀ o ∈ ins.operands, Avoids t.scratch o) :
    ∃ v' w', m.stepVirtual kv v ins = some v' ∧ m.run kt w group = some w' ∧
      Related t block (i + 1) v' w' := by
  have hread : ∀ l, Link.of? ins = some l → l.role = .consume →
      (∃ c, v.carry = some c ∧ w.carry = some c) ∧ ∃ g, group = [g] := by
    intro l hl hrole
    exact h.readable hs hins hg hl hrole
  obtain ⟨v₁, w', hm⟩ : ∃ v₁ w', Matched m kv kt t.scratch w ins group v₁ w' := by
    refine matched_of_lower hlow ?_
    intro l hl hrole
    obtain ⟨⟨c, _, hc⟩, hone⟩ := hread l hl hrole
    exact ⟨⟨c, hc⟩, hone⟩
  have hsame : ∀ l, Link.of? ins = some l → l.role = .consume → v.carry = w.carry := by
    intro l hl hrole
    obtain ⟨⟨c, hv, hw⟩, _⟩ := hread l hl hrole
    exact hv.trans hw.symm
  obtain ⟨v', hv', hagree, hcarry⟩ := stepVirtual_congr h.agree havoid hsame hm.virtual
  refine ⟨v', w', hv', hm.lowered, hagree.trans hm.agree, ?_⟩
  intro j l hn ha
  cases hl : Link.of? ins with
  | some l' =>
      obtain ⟨c, hv₁, hw'⟩ := hm.carry l' hl
      exact ⟨c, (hcarry l' hl).trans hv₁, hw'⟩
  | none =>
      -- whoever awaits the carry behind this place awaits it here already
      have hat : linkAt block i = none := (linkAt_of_getElem? hins).trans hl
      have hn' : Nearest block i j l := hn.of_succ hat
      have ha' : Awaited block i := (awaited_of_none hat).mpr ha
      obtain ⟨c, hv, hw⟩ := h.carry j l hn' ha'
      have hinert := inert_of_awaited hs hn' hat ha' hg
      exact ⟨c, (carry_of_inert hlow hl hinert hv').trans hv,
        (carry_of_inert_group hinert hm.lowered).trans hw⟩

/-- The rest of a block and the rest of its groups end in states that agree. -/
theorem Related.runs (h : Related t block i v w) (m : Meaning) (kv kt : CarryPolicy)
    (hs : AllSupplied block groups) (hgroups : block.map t.lower = groups.map .ok)
    (havoid : ∀ ins ∈ block, ∀ o ∈ ins.operands, Avoids t.scratch o) :
    ∃ v' w', m.runVirtual kv v (block.drop i) = some v' ∧
      m.run kt w (groups.drop i).flatten = some w' ∧ AgreeOff t.scratch v' w' := by
  have hlen : block.length = groups.length := by
    simpa using congrArg List.length hgroups
  induction hn : block.length - i generalizing i v w with
  | zero =>
      have hle : block.length ≤ i := Nat.le_of_sub_eq_zero hn
      rw [List.drop_eq_nil_of_le hle, List.drop_eq_nil_of_le (hlen ▸ hle)]
      exact ⟨v, w, Meaning.runVirtual_nil, Meaning.run_nil, h.agree⟩
  | succ n ih =>
      have hi : i < block.length := by omega
      have hi' : i < groups.length := hlen ▸ hi
      have hg : groups[i]? = some groups[i] := List.getElem?_eq_getElem hi'
      have hins : block[i]? = some block[i] := List.getElem?_eq_getElem hi
      have hlow : t.lower block[i] = .ok groups[i] :=
        lower_of_groupAt hins ((groupAt_eq_ok_iff hgroups).mpr hg)
      obtain ⟨v₁, w₁, hv₁, hw₁, hrel⟩ :=
        h.step hs hins hg hlow (havoid _ (List.getElem_mem hi))
      obtain ⟨v', w', hv', hw', hagree⟩ := ih hrel (by omega)
      refine ⟨v', w', ?_, ?_, hagree⟩
      · rw [List.drop_eq_getElem_cons hi, Meaning.runVirtual_cons hv₁, hv']
      · rw [List.drop_eq_getElem_cons hi', List.flatten_cons, Meaning.run_append hw₁, hw']

end Machine

namespace Target

open Machine

/-- Lowering keeps the meaning of a block. Run from any one state, an accepted
block and its lowered code both come to an end, with the same memory and, but
for the scratch register, the same registers. The block must leave the scratch
register to lowering. What the operations of the two machines compute that have
no meaning of their own does not matter, nor which instructions beside the links
keep the carry. -/
theorem lowerBlock_preserves_meaning (t : Target) (block : List Instruction)
    (out : LoweredBlock) (h : t.lowerBlock block = .ok out)
    (reserved : ∀ r, t.scratch = some r → ∀ ins ∈ block, ins.uses r = false)
    (m : Meaning) (kv kt : CarryPolicy) (s : State) :
    ∃ v w, m.runVirtual kv s block = some v ∧ m.run kt s out.instructions = some w ∧
      v.mem = w.mem ∧ ∀ r, t.scratch ≠ some r → v.regs r = w.regs r := by
  obtain ⟨_, hclean, groups, hgroups, rfl⟩ := clean_of_lowerBlock h
  have hs := Carry.supplied_of_clean hgroups hclean
  have havoid : ∀ ins ∈ block, ∀ o ∈ ins.operands, Avoids t.scratch o := by
    intro ins hins o ho r hr
    have hu := reserved r hr ins hins
    rw [Instruction.uses, List.any_eq_false] at hu
    simpa using hu o ho
  have hrel : Related t block 0 s s := related_start s
  obtain ⟨v, w, hv, hw, hagree⟩ := hrel.runs m kv kt hs hgroups havoid
  rw [List.drop_zero] at hv hw
  rw [instructions_of_groups]
  exact ⟨v, w, hv, hw, hagree.mem, hagree.regs⟩

/-- A quotient that goes through the scratch register, and a chain with a sum
inside that is computed as an address. -/
theorem lowerBlock_preserves_meaning_quotient_and_chain :
    let t := amd64WithScratch ⟨15⟩
    let block : List Instruction :=
      [.ternary .div3 (.reg ⟨1⟩) (.reg ⟨2⟩) (.reg ⟨1⟩), .binary .add (.reg ⟨0⟩) (.reg ⟨3⟩),
        .ternary .add3 (.reg ⟨6⟩) (.reg ⟨7⟩) (.imm (-8)),
        .ternary .adc3 (.reg ⟨4⟩) (.mem ⟨some ⟨5⟩, none, 16⟩) (.reg ⟨4⟩)]
    let out : LoweredBlock :=
      ⟨[⟨.binary .mov (.reg ⟨15⟩) (.reg ⟨2⟩), false, 0⟩,
        ⟨.binary .div (.reg ⟨15⟩) (.reg ⟨1⟩), false, 0⟩,
        ⟨.binary .mov (.reg ⟨1⟩) (.reg ⟨15⟩), false, 0⟩,
        ⟨.binary .add (.reg ⟨0⟩) (.reg ⟨3⟩), false, 1⟩,
        ⟨.binary .lea (.reg ⟨6⟩) (.mem ⟨some ⟨7⟩, none, -8⟩), true, 2⟩,
        ⟨.binary .adc (.reg ⟨4⟩) (.mem ⟨some ⟨5⟩, none, 16⟩), false, 3⟩]⟩
    let m : Meaning := ⟨fun _ a => a, fun _ a b => a / b⟩
    let s : State := ⟨fun r => word r.index.toNat, fun a => a, none⟩
    t.lowerBlock block = .ok out ∧
      (∀ r, t.scratch = some r → ∀ ins ∈ block, ins.uses r = false) ∧
      ∃ v w, m.runVirtual (fun _ => true) s block = some v ∧
        m.run (fun _ => false) s out.instructions = some w ∧
        v.mem = w.mem ∧ ∀ r, t.scratch ≠ some r → v.regs r = w.regs r := by
  intro t block out m s
  have hout : t.lowerBlock block = .ok out := rfl
  have hreserved : ∀ r, t.scratch = some r → ∀ ins ∈ block, ins.uses r = false := by
    rintro r hr
    cases hr
    decide
  exact ⟨hout, hreserved,
    lowerBlock_preserves_meaning t block out hout hreserved m (fun _ => true) (fun _ => false) s⟩

end Target

end TwoAddress
