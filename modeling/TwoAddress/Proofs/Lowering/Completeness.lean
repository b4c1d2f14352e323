/-
# `Proofs.Lowering.Completeness` — what a scratch register is enough for

Lowering refuses an instruction for one of four reasons: its opcode has no name,
its destination cannot be written, its address is not encoded, or it needs the
scratch register and does not get it. Where the first three are excluded and the
scratch register is lent, every way of lowering can be written out
(`exists_emit`), whatever the operands have to do with one another. So a block
that reads no carry is lowered as a whole.

The plan of an instruction does not depend on there being a scratch register
(`plan_withoutScratch`). So taking that register away does one of two things:
nothing at all, or it makes an instruction fail that needed it
(`lower_withoutScratch`).
-/
import TwoAddress.Proofs.Assembly.Mnemonic
import TwoAddress.Proofs.Lowering.Capability

namespace TwoAddress

namespace Opcode

theorem eq_lea4_of_isDeclared {op4 : Opcode .quaternary} (h : op4.isDeclared = true) :
    op4 = .lea4 := by
  have table : ∀ x ∈ declared .quaternary, x.1 = .lea4 := by decide
  exact (forall_declared_iff (p := (· = lea4))).mp table op4 h

end Opcode

namespace Instruction

/-- Computes an address, from an operand in memory or from a base and a scaled
index. -/
def LoadsAddress : Instruction → Prop
  | binary op _ _ => op = .lea
  | quaternary op _ _ _ _ => op = .lea4
  | _ => False

end Instruction

namespace Target

/-- What lowering can ask of an instruction for a target that sets the register
`s` aside. Nothing is said of how its operands overlap. -/
structure Proper (t : Target) (s : Reg) (ins : Instruction) : Prop where
  declared : ins.opcode.isDeclared = true
  destination : ∀ dst, ins.dst? = some dst → dst.isImm = false
  scratch : ins.uses s = false
  address : ins.LoadsAddress → ∃ group, t.lower ins = .ok group
  chainless : ¬ ins.ReadsCarry

variable {t : Target} {ins : Instruction} {s : Reg} {op : Opcode .binary} {dst src : Operand}

/-! ## With a scratch register -/

theorem exists_operation (hs : t.scratchFor ins = .ok s) (op : Opcode .binary)
    (dst src : Operand) : ∃ group, t.operation ins op dst src = .ok group := by
  rw [operation, hs]
  split
  case isTrue => exact ⟨_, rfl⟩
  case isFalse => exact ⟨_, rfl⟩

/-- Where the scratch register is lent, every plan is written out. -/
theorem exists_emit (hs : t.scratchFor ins = .ok s) (plan : Plan) :
    ∃ group, t.emit ins plan = .ok group := by
  cases plan with
  | operate op dst src => exact exists_operation hs op dst src
  | reuse op dst b => exact exists_operation hs op dst b
  | commute op dst a => exact exists_operation hs op dst a
  | moveUnary op dst src =>
      obtain ⟨copy, hcopy⟩ := exists_operation hs .mov dst src
      exact ⟨_, bind_eq_ok_iff.mpr ⟨copy, hcopy, rfl⟩⟩
  | negateAdd dst a =>
      obtain ⟨rest, hrest⟩ := exists_operation hs .add dst a
      exact ⟨_, bind_eq_ok_iff.mpr ⟨rest, hrest, rfl⟩⟩
  | viaScratch why op dst a b => exact ⟨_, bind_eq_ok_iff.mpr ⟨s, hs, rfl⟩⟩
  | keep => exact ⟨_, rfl⟩
  | unaryInPlace op dst => exact ⟨_, rfl⟩
  | fuse dst a => exact ⟨_, rfl⟩
  | commuteMove op dst a b => exact ⟨_, rfl⟩
  | moveOperate op dst a b => exact ⟨_, rfl⟩
  | loadAddress op dst a => exact ⟨_, rfl⟩

theorem Proper.exists_plan (h : t.Proper s ins) (haddr : ¬ ins.LoadsAddress) :
    ∃ plan, t.plan ins = .ok plan := by
  have hdecl := h.declared
  have hdst := h.destination
  cases ins with
  | nullary op => exact ⟨.keep, if_pos hdecl⟩
  | unary op dst =>
      refine ⟨.keep, ?_⟩
      have hop : op.isDeclared = true := hdecl
      simp [Target.plan, hop, hdst dst rfl]
  | binary op dst src =>
      have hop : op.isDeclared = true := hdecl
      have hlea : op ≠ .lea := haddr
      simp only [Target.plan, planBinary, hop, hdst dst rfl, if_neg hlea]
      cases op.toUnary? with
      | none => exact ⟨_, rfl⟩
      | some unary => exact ⟨_, rfl⟩
  | ternary op3 dst a b =>
      obtain ⟨op, hop⟩ : ∃ op, op3.ternaryToBinary? = some op :=
        Opcode.sound_ternaryTable.exists_lookup_iff.mpr hdecl
      refine ⟨t.strategy op dst a b, ?_⟩
      simp [Target.plan, hop, hdst dst rfl]
  | quaternary op4 dst base index scale =>
      exact absurd (Opcode.eq_lea4_of_isDeclared hdecl) haddr

theorem Proper.exists_lower (h : t.Proper s ins) (hs : t.scratch = some s) :
    ∃ group, t.lower ins = .ok group := by
  by_cases haddr : ins.LoadsAddress
  · exact h.address haddr
  · obtain ⟨plan, hplan⟩ := h.exists_plan haddr
    obtain ⟨group, hgroup⟩ := exists_emit (scratchFor_eq_ok_iff.mpr ⟨hs, h.scratch⟩) plan
    exact ⟨group, lower_eq_ok_iff.mpr ⟨plan, hplan, hgroup⟩⟩

/-! ## Without one -/

/-- The same target with no register set aside. -/
def withoutScratch (t : Target) : Target :=
  { t with scratch := none, sound := t.sound }

/-- The second outcome is the first, unless that needed a scratch register. -/
def SameOrLacking {α : Type} (t : Target) (ins : Instruction) (x y : Except Error α) : Prop :=
  y = x ∨ y = .error (.operand ins (.noScratch t.name))

theorem SameOrLacking.bind {α β : Type} {x y : Except Error α} (h : t.SameOrLacking ins x y)
    (f : α → Except Error β) : t.SameOrLacking ins (x >>= f) (y >>= f) := by
  rcases h with rfl | rfl
  · exact .inl rfl
  · exact .inr rfl

theorem operation_withoutScratch (t : Target) (ins : Instruction) (op : Opcode .binary)
    (dst src : Operand) :
    t.SameOrLacking ins (t.operation ins op dst src)
      (t.withoutScratch.operation ins op dst src) := by
  by_cases h : t.memoryToMemory = false ∧ dst.isMem ∧ src.isMem
  · exact .inr (if_pos h)
  · exact .inl ((if_neg h).trans (if_neg h).symm)

theorem emit_withoutScratch (t : Target) (ins : Instruction) (plan : Plan) :
    t.SameOrLacking ins (t.emit ins plan) (t.withoutScratch.emit ins plan) := by
  cases plan with
  | operate op dst src => exact t.operation_withoutScratch ins op dst src
  | reuse op dst b => exact t.operation_withoutScratch ins op dst b
  | commute op dst a => exact t.operation_withoutScratch ins op dst a
  | moveUnary op dst src => exact (t.operation_withoutScratch ins .mov dst src).bind _
  | negateAdd dst a => exact (t.operation_withoutScratch ins .add dst a).bind _
  | viaScratch why op dst a b => exact .inr rfl
  | keep => exact .inl rfl
  | unaryInPlace op dst => exact .inl rfl
  | fuse dst a => exact .inl rfl
  | commuteMove op dst a b => exact .inl rfl
  | moveOperate op dst a b => exact .inl rfl
  | loadAddress op dst a => exact .inl rfl

theorem plan_withoutScratch (t : Target) (ins : Instruction) :
    t.withoutScratch.plan ins = t.plan ins := by
  cases ins <;> rfl

theorem lower_withoutScratch (t : Target) (ins : Instruction) :
    t.SameOrLacking ins (t.lower ins) (t.withoutScratch.lower ins) := by
  rw [lower, lower, plan_withoutScratch]
  cases t.plan ins with
  | error e => exact .inl rfl
  | ok plan => exact t.emit_withoutScratch ins plan

/-! ## Whole blocks -/

open Carry

variable {block : List Instruction} {groups : List (List Instruction)} {i : Nat}

theorem no_consumer (h : ∀ ins ∈ block, ¬ ins.ReadsCarry) {l : Link}
    (hl : linkAt block i = some l) : l.role ≠ .consume := by
  intro hrole
  obtain ⟨ins, hins, hof⟩ := linkAt_eq_some_iff.mp hl
  exact h ins (List.mem_of_getElem? hins) (readsCarry_iff.mpr ⟨l, hof, hrole⟩)

/-- Where no carry is read, the only fault is an instruction that is refused. -/
theorem refused_of_fault (h : ∀ ins ∈ block, ¬ ins.ReadsCarry) {e : Error}
    (hf : FaultAt t block i e) : ∃ ins ∈ block, t.lower ins = .error e := by
  cases hf with
  | refused hg =>
      obtain ⟨ins, hins, hlow⟩ := Option.map_eq_some_iff.mp hg
      exact ⟨ins, List.mem_of_getElem? hins, hlow⟩
  | noProducer hl hrole _ _ _ => exact absurd hrole (no_consumer h hl)
  | wrongFamily hl hrole _ _ _ => exact absurd hrole (no_consumer h hl)
  | prepared hl hrole _ _ _ => exact absurd hrole (no_consumer h hl)
  | clobbered _ ha _ _ _ =>
      obtain ⟨_, _, _, hl, hrole, _⟩ := ha
      exact absurd hrole (no_consumer h hl)

theorem lowerBlock_of_chainless (hfits : block.length ≤ t.maxBlockLen.toNat)
    (h : ∀ ins ∈ block, ¬ ins.ReadsCarry) (hg : block.map t.lower = groups.map .ok) :
    t.lowerBlock block = .ok ⟨(groups.mapIdx Lowered.ofGroup).flatten⟩ :=
  lowerBlock_of_supplied hfits hg fun _ _ hl hrole => absurd hrole (no_consumer h hl)

/-- A block that reads no carry comes to the same without a scratch register, or
to the first of its instructions that needs one. -/
theorem lowerBlock_withoutScratch {out : LoweredBlock} (h : ∀ ins ∈ block, ¬ ins.ReadsCarry)
    (hout : t.lowerBlock block = .ok out) :
    t.withoutScratch.lowerBlock block = .ok out ∨
      ∃ ins ∈ block, t.withoutScratch.lowerBlock block =
        .error (.operand ins (.noScratch t.name)) := by
  obtain ⟨hfits, _, groups, hgroups, rfl⟩ := clean_of_lowerBlock hout
  by_cases hsame : ∀ ins ∈ block, t.withoutScratch.lower ins = t.lower ins
  · refine .inl (lowerBlock_of_chainless hfits h ?_)
    rw [← hgroups]
    exact List.map_congr_left hsame
  · refine .inr ?_
    obtain ⟨i, e, hf⟩ : ∃ i e, FaultAt t.withoutScratch block i e := by
      simp only [not_forall] at hsame
      obtain ⟨ins, hins, hne⟩ := hsame
      obtain ⟨i, hi⟩ := List.mem_iff_getElem?.mp hins
      have hlow := (t.lower_withoutScratch ins).resolve_left hne
      exact ⟨i, _, .refused ((groupAt_of_getElem? hi).trans (congrArg some hlow))⟩
    obtain ⟨j, e', hf', hfirst⟩ := exists_first_fault hf
    obtain ⟨ins, hins, hlow⟩ := refused_of_fault h hf'
    refine ⟨ins, hins, ?_⟩
    -- with the scratch register the instruction was lowered, so it lacks just that
    obtain ⟨k, hk⟩ := List.mem_iff_getElem?.mp hins
    obtain ⟨group, _, hok⟩ := exists_lower hgroups hk
    rcases t.lower_withoutScratch ins with heq | hlack
    · exact nomatch hlow.symm.trans (heq.trans hok)
    · obtain rfl := Except.error.inj (hlow.symm.trans hlack)
      exact lowerBlock_of_fault (t := t.withoutScratch) hfits hf' hfirst

/-- With a scratch register, a block within the limit is lowered if no instruction
reads a carry and each has a name, a destination that can be written, no use of
that register and, if it computes an address, one that is encoded. Without the
register the code is the same, or the block is refused for an operand. -/
theorem lowerBlock_complete (t : Target) (s : Reg) (hs : t.scratch = some s)
    (block : List Instruction) (hfits : block.length ≤ t.maxBlockLen.toNat)
    (hproper : ∀ ins ∈ block, t.Proper s ins) :
    ∃ out, t.lowerBlock block = .ok out ∧
      (t.withoutScratch.lowerBlock block = .ok out ∨
        ∃ e, t.withoutScratch.lowerBlock block = .error e ∧ e.label = "invalid-operand" ∧
          ∃ ins ∈ block, e = .operand ins (.noScratch t.name)) := by
  have hchainless : ∀ ins ∈ block, ¬ ins.ReadsCarry := fun ins hins => (hproper ins hins).chainless
  obtain ⟨groups, hgroups⟩ := exists_groups fun ins hins => (hproper ins hins).exists_lower hs
  have hout := lowerBlock_of_chainless hfits hchainless hgroups
  refine ⟨_, hout, ?_⟩
  rcases lowerBlock_withoutScratch hchainless hout with hsame | ⟨ins, hins, hlack⟩
  · exact .inl hsame
  · exact .inr ⟨_, hlack, rfl, ins, hins, rfl⟩

/-- A quotient that overwrites its divisor is computed in the scratch register, and
without one it is refused. -/
theorem lowerBlock_complete_quotient_over_divisor :
    let t := amd64WithScratch ⟨15⟩
    let load : Instruction :=
      .quaternary .lea4 (.reg ⟨3⟩) (.mem ⟨some ⟨1⟩, none, 8⟩) (.reg ⟨2⟩) (.imm 4)
    let quotient : Instruction := .ternary .div3 (.reg ⟨1⟩) (.mem (.ofReg ⟨1⟩)) (.reg ⟨1⟩)
    let block := [load, quotient]
    t.scratch = some ⟨15⟩ ∧ block.length ≤ t.maxBlockLen.toNat ∧
      (∀ ins ∈ block, t.Proper ⟨15⟩ ins) ∧
      ∃ out, t.lowerBlock block = .ok out ∧
        (t.withoutScratch.lowerBlock block = .ok out ∨
          ∃ e, t.withoutScratch.lowerBlock block = .error e ∧ e.label = "invalid-operand" ∧
            ∃ ins ∈ block, e = .operand ins (.noScratch t.name)) := by
  intro t load quotient block
  have hload : t.Proper ⟨15⟩ load :=
    { declared := by decide
      destination := fun _ hd => Option.some.inj hd ▸ rfl
      scratch := by decide
      address := fun _ => ⟨_, rfl⟩
      chainless := id }
  have hquotient : t.Proper ⟨15⟩ quotient :=
    { declared := by decide
      destination := fun _ hd => Option.some.inj hd ▸ rfl
      scratch := by decide
      address := fun h => nomatch h
      chainless := by rintro (h | h) <;> exact nomatch h }
  have hproper : ∀ ins ∈ block, t.Proper ⟨15⟩ ins :=
    List.forall_mem_cons.mpr ⟨hload, List.forall_mem_singleton.mpr hquotient⟩
  exact ⟨rfl, by decide, hproper, lowerBlock_complete t ⟨15⟩ rfl block (by decide) hproper⟩

end Target

end TwoAddress
