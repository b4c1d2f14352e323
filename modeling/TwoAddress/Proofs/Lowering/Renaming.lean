/-
# `Proofs.Lowering.Renaming` — registers renamed in one instruction

A permutation of the registers renames them wherever they stand: in operands and
instructions, in plans, in what an error is about, and as the scratch register of a
target. Lowering an instruction looks at a register in one way only, namely whether it
is the same as another one, and this a permutation leaves as it is (`uses_rename`,
`rename_inj`). So whatever planning and emission do with the instruction they do with
the renamed one, and what comes out is renamed, be it code or an error
(`lower_rename`).

Each function on the way commutes with renaming, and these lemmas are put together
along the binds (`renameResult_bind`). Of an error the renaming leaves everything that
is no register: its heading is the same (`Error.heading_rename`).
-/
import Mathlib.Logic.Equiv.Basic
import TwoAddress.Emission
import TwoAddress.Proofs.Assembly.Normal
import TwoAddress.Proofs.Except

namespace TwoAddress

variable {p : Equiv.Perm Reg}

/-! ## Operands -/

theorem beq_rename (r s : Reg) : (p r == p s) = (r == s) :=
  decide_eq_decide.mpr p.apply_eq_iff_eq

def ScaledReg.rename (p : Equiv.Perm Reg) (x : ScaledReg) : ScaledReg :=
  ⟨p x.reg, x.scale⟩

namespace Address

def rename (p : Equiv.Perm Reg) (a : Address) : Address :=
  ⟨a.base.map p, a.index.map (ScaledReg.rename p), a.disp⟩

variable {a : Address} {r : Reg}

theorem rename_symm (a : Address) : (a.rename p).rename p.symm = a := by
  rcases a with ⟨_ | b, _ | x, d⟩ <;> simp [rename, ScaledReg.rename]

theorem uses_rename : (a.rename p).uses (p r) = a.uses r := by
  rcases a with ⟨_ | b, _ | x, d⟩ <;>
    simp only [uses, rename, ScaledReg.rename, Option.map_none, Option.map_some, Option.any_none,
      Option.any_some, Option.some_beq_some, Option.none_beq_some, beq_rename]

theorem fields_rename : (a.rename p).fields = a.fields := by
  rcases a with ⟨_ | b, _ | x, d⟩ <;> rfl

theorem rename_eq_self (h : ∀ r, a.uses r = true → p r = r) : a.rename p = a := by
  rcases a with ⟨_ | b, _ | x, d⟩
  · rfl
  · have hx := h x.reg (by simp [uses])
    simp [rename, ScaledReg.rename, hx]
  · have hb := h b (by simp [uses])
    simp [rename, hb]
  · have hb := h b (by simp [uses])
    have hx := h x.reg (by simp [uses])
    simp [rename, ScaledReg.rename, hb, hx]

end Address

namespace Operand

def rename (p : Equiv.Perm Reg) : Operand → Operand
  | reg r => reg (p r)
  | mem a => mem (a.rename p)
  | imm k => imm k

variable {o dst : Operand} {r : Reg}

@[simp] theorem rename_reg : (reg r).rename p = reg (p r) := rfl

@[simp] theorem rename_mem {a : Address} : (mem a).rename p = mem (a.rename p) := rfl

@[simp] theorem rename_imm {k : Int64} : (imm k).rename p = imm k := rfl

theorem rename_symm (o : Operand) : (o.rename p).rename p.symm = o := by
  cases o with
  | reg r => exact congrArg reg (p.symm_apply_apply r)
  | mem a => exact congrArg mem a.rename_symm
  | imm k => rfl

@[simp] theorem rename_inj {o' : Operand} : o.rename p = o'.rename p ↔ o = o' :=
  (Function.LeftInverse.injective (rename_symm (p := p))).eq_iff

@[simp] theorem isMem_rename : (o.rename p).isMem = o.isMem := by
  cases o <;> rfl

@[simp] theorem isImm_rename : (o.rename p).isImm = o.isImm := by
  cases o <;> rfl

theorem uses_rename : (o.rename p).uses (p r) = o.uses r := by
  cases o with
  | reg s => exact beq_rename s r
  | mem a => exact Address.uses_rename
  | imm k => rfl

theorem rename_eq_self (h : ∀ r, o.uses r = true → p r = r) : o.rename p = o := by
  cases o with
  | reg r => exact congrArg reg (h r (beq_self_eq_true r))
  | mem a => exact congrArg mem (Address.rename_eq_self h)
  | imm k => rfl

@[simp] theorem dependsOn_rename : (o.rename p).dependsOn (dst.rename p) = o.dependsOn dst := by
  cases dst with
  | reg r => exact uses_rename
  | mem a => rfl
  | imm k => rfl

@[simp] theorem mayChangeWith_rename :
    (o.rename p).mayChangeWith (dst.rename p) = o.mayChangeWith dst := by
  rw [mayChangeWith, mayChangeWith, dependsOn_rename, isMem_rename, isMem_rename]

end Operand

/-! ## Instructions and plans -/

namespace Instruction

def rename (p : Equiv.Perm Reg) : Instruction → Instruction :=
  mapOperands (Operand.rename p)

variable {ins : Instruction} {r : Reg}

theorem rename_symm (ins : Instruction) : (ins.rename p).rename p.symm = ins := by
  cases ins <;> simp [rename, mapOperands, Operand.rename_symm]

theorem operands_rename : (ins.rename p).operands = ins.operands.map (Operand.rename p) := by
  cases ins <;> rfl

theorem uses_rename : (ins.rename p).uses (p r) = ins.uses r := by
  have hop : (Operand.uses · (p r)) ∘ Operand.rename p = (Operand.uses · r) :=
    funext fun o => Operand.uses_rename
  rw [uses, uses, operands_rename, List.any_map, hop]

theorem rename_eq_self (h : ∀ r, ins.uses r = true → p r = r) : ins.rename p = ins := by
  refine mapOperands_eq_self_iff.mpr fun o ho => ?_
  exact Operand.rename_eq_self fun r hr => h r (List.any_eq_true.mpr ⟨o, ho, hr⟩)

theorem preservesCarry_rename : (ins.rename p).preservesCarry = ins.preservesCarry := by
  cases ins <;> rfl

end Instruction

def Plan.rename (p : Equiv.Perm Reg) : Plan → Plan
  | keep => keep
  | operate op dst src => operate op (dst.rename p) (src.rename p)
  | unaryInPlace op dst => unaryInPlace op (dst.rename p)
  | moveUnary op dst src => moveUnary op (dst.rename p) (src.rename p)
  | reuse op dst b => reuse op (dst.rename p) (b.rename p)
  | fuse dst a => fuse (p dst) (a.rename p)
  | commute op dst a => commute op (dst.rename p) (a.rename p)
  | negateAdd dst a => negateAdd (dst.rename p) (a.rename p)
  | commuteMove op dst a b => commuteMove op (dst.rename p) (a.rename p) (b.rename p)
  | viaScratch why op dst a b => viaScratch why op (dst.rename p) (a.rename p) (b.rename p)
  | moveOperate op dst a b => moveOperate op (dst.rename p) (a.rename p) (b.rename p)
  | loadAddress op dst a => loadAddress op (p dst) (a.rename p)

/-! ## Errors -/

def AddressingMode.Misfit.rename (p : Equiv.Perm Reg) : Misfit → Misfit
  | scale a s supported => scale (a.rename p) s supported
  | fields a limit => fields (a.rename p) limit

def AddressCause.rename (p : Equiv.Perm Reg) : AddressCause → AddressCause
  | scale s => scale s
  | baseIndexed a => baseIndexed (a.rename p)
  | dispTooWide => dispTooWide

def OperandCause.rename (p : Equiv.Perm Reg) : OperandCause → OperandCause
  | leaSourceNotMemory => leaSourceNotMemory
  | leaDestinationNotRegister => leaDestinationNotRegister
  | scaleNotImmediate o => scaleNotImmediate (o.rename p)
  | indexInMemory a => indexInMemory (a.rename p)
  | noScratch target => noScratch target
  | scratchInUse r => scratchInUse (p r)

def Carry.Cause.rename (p : Equiv.Perm Reg) : Cause → Cause
  | clobbered ins source => clobbered (ins.rename p) (source.rename p)
  | overwritten ins source => overwritten (ins.rename p) (source.rename p)
  | noProducer ins => noProducer (ins.rename p)
  | wrongFamily ins family source => wrongFamily (ins.rename p) family (source.rename p)
  | neverConsumed source => neverConsumed (source.rename p)

/-- A break at the same places, of renamed instructions. -/
def Carry.Break.rename (p : Equiv.Perm Reg) (b : Break) : Break :=
  ⟨b.producer, b.offender, b.cause.rename p⟩

/-- The error with the registers renamed in all that it is about. -/
def Error.rename (p : Equiv.Perm Reg) : Error → Error
  | unsupportedOpcode ins => unsupportedOpcode (ins.rename p)
  | immutableDestination ins => immutableDestination (ins.rename p)
  | misfit m => misfit (m.rename p)
  | address ins cause => address (ins.rename p) (cause.rename p)
  | operand ins cause => operand (ins.rename p) (cause.rename p)
  | carry b => carry (b.rename p)
  | e => e

theorem Error.heading_rename (e : Error) : (e.rename p).heading = e.heading := by
  cases e with
  | unsupportedOpcode ins => cases ins <;> rfl
  | _ => rfl

/-! ## Results -/

/-- What a computation comes to, with registers renamed in a result by `f` and in an
error. -/
def renameResult {α β : Type} (p : Equiv.Perm Reg) (f : α → β) :
    Except Error α → Except Error β
  | .ok a => .ok (f a)
  | .error e => .error (e.rename p)

section Results

variable {α α' β β' : Type} {f : α → α'} {g : β → β'} {x : Except Error α}

/-- Renaming goes through a bind if it goes through the step behind it. -/
theorem renameResult_bind {k : α → Except Error β} {k' : α' → Except Error β'}
    (h : ∀ a, k' (f a) = renameResult p g (k a)) :
    renameResult p f x >>= k' = renameResult p g (x >>= k) := by
  cases x with
  | error e => rfl
  | ok a => exact h a

theorem renameResult_map {h : α → β} {h' : α' → β'} (hstep : ∀ a, h' (f a) = g (h a)) :
    (renameResult p f x).map h' = renameResult p g (x.map h) := by
  cases x with
  | error e => rfl
  | ok a => exact congrArg Except.ok (hstep a)

theorem renameResult_eq_ok_iff {a : α} (hf : Function.Injective f) :
    renameResult p f x = .ok (f a) ↔ x = .ok a := by
  cases x with
  | error e => exact iff_of_false (fun h => nomatch h) (fun h => nomatch h)
  | ok a' => rw [renameResult, Except.ok.injEq, Except.ok.injEq, hf.eq_iff]

theorem exists_renameResult_iff {h : Heading} :
    (∃ e, renameResult p f x = .error e ∧ e.heading = h) ↔ ∃ e, x = .error e ∧ e.heading = h := by
  cases x with
  | error e => simp [renameResult, Error.heading_rename]
  | ok a => simp [renameResult]

end Results

/-! ## Planning -/

section Planning

variable {mode : AddressingMode} {ins : Instruction} {o dst src a b base index scale : Operand}
  {m : Address} {k : UInt8} {d : Int}

theorem sumAddress?_rename {op : Opcode .binary} :
    sumAddress? op (a.rename p) (b.rename p) = (sumAddress? op a b).map (Address.rename p) := by
  cases a with
  | mem m => cases b <;> rfl
  | reg x =>
      cases b with
      | mem m => rfl
      | reg y =>
          simp only [sumAddress?, Operand.rename_reg]
          split <;> rfl
      | imm k =>
          simp only [sumAddress?, Operand.rename_reg, Operand.rename_imm,
            apply_ite (Option.map (Address.rename p)), Option.map_map, Option.map_none]
          rfl
  | imm k =>
      cases b with
      | reg x =>
          simp only [sumAddress?, Operand.rename_reg, Operand.rename_imm,
            apply_ite (Option.map (Address.rename p)), Option.map_map, Option.map_none]
          rfl
      | mem m => rfl
      | imm l => rfl

namespace AddressingMode

theorem misfit?_rename :
    mode.misfit? (m.rename p) = (mode.misfit? m).map (Misfit.rename p) := by
  have hindex : (m.rename p).index.filter (fun x => !mode.supportsScale x.scale) =
      (m.index.filter fun x => !mode.supportsScale x.scale).map (ScaledReg.rename p) :=
    Option.filter_map
  rw [misfit?, misfit?, hindex]
  cases m.index.filter fun x => !mode.supportsScale x.scale with
  | some x => rfl
  | none =>
      simp only [Option.map_none, Address.fields_rename]
      split <;> rfl

theorem encodes_rename : mode.encodes (m.rename p) = mode.encodes m := by
  rw [encodes, encodes, misfit?_rename, Option.isNone_map]

theorem check_rename : mode.check (m.rename p) = renameResult p id (mode.check m) := by
  rw [check, check, misfit?_rename]
  cases mode.misfit? m <;> rfl

end AddressingMode

namespace Target

/-- The target with another scratch register. -/
def rename (p : Equiv.Perm Reg) (t : Target) : Target :=
  { t with scratch := t.scratch.map p }

variable {t : Target} {op : Opcode .binary} {plan : Plan}

@[simp] theorem addressing_rename : (t.rename p).addressing = t.addressing := rfl

@[simp] theorem leaFusion_rename : (t.rename p).leaFusion = t.leaFusion := rfl

@[simp] theorem memoryToMemory_rename : (t.rename p).memoryToMemory = t.memoryToMemory := rfl

@[simp] theorem maxBlockLen_rename : (t.rename p).maxBlockLen = t.maxBlockLen := rfl

@[simp] theorem scratch_rename : (t.rename p).scratch = t.scratch.map p := rfl

theorem fusion?_rename :
    (t.rename p).fusion? op (dst.rename p) (a.rename p) (b.rename p) =
      (t.fusion? op dst a b).map (Prod.map p (Address.rename p)) := by
  simp only [fusion?, sumAddress?_rename, leaFusion_rename, addressing_rename]
  cases t.leaFusion with
  | false => rfl
  | true =>
      cases t.addressing with
      | none => rfl
      | some mode =>
          cases dst with
          | mem m => rfl
          | imm k => rfl
          | reg d =>
              cases sumAddress? op a b with
              | none => rfl
              | some sum =>
                  simp only [Operand.rename_reg, Option.map_some, AddressingMode.encodes_rename]
                  split <;> rfl

/-- A strategy is chosen by what the operands are to each other. -/
theorem strategy_rename :
    (t.rename p).strategy op (dst.rename p) (a.rename p) (b.rename p) =
      (t.strategy op dst a b).rename p := by
  simp only [strategy, fusion?_rename, Operand.rename_inj, Operand.dependsOn_rename,
    Operand.mayChangeWith_rename, Operand.isMem_rename, memoryToMemory_rename]
  cases t.fusion? op dst a b with
  | none =>
      simp only [Option.map_none, apply_ite (Plan.rename p)]
      rfl
  | some x =>
      simp only [Option.map_some, apply_ite (Plan.rename p)]
      rfl

theorem planAddress_rename :
    (t.rename p).planAddress (ins.rename p) (dst.rename p) (src.rename p) =
      renameResult p (Plan.rename p) (t.planAddress ins dst src) := by
  simp only [planAddress, addressing_rename]
  cases t.addressing with
  | none => rfl
  | some mode =>
      cases src with
      | reg r => rfl
      | imm k => rfl
      | mem m =>
          cases dst with
          | mem m' => rfl
          | imm k => rfl
          | reg d =>
              simp only [Operand.rename_reg, Operand.rename_mem, AddressingMode.check_rename]
              exact renameResult_bind fun _ => rfl

theorem planBinary_rename (ins : Instruction) :
    (t.rename p).planBinary (ins.rename p) op (dst.rename p) (src.rename p) =
      renameResult p (Plan.rename p) (t.planBinary ins op dst src) := by
  rw [planBinary, planBinary, planAddress_rename]
  split
  case isTrue => rfl
  case isFalse =>
    cases op.toUnary? with
    | none => rfl
    | some unary =>
        simp only [Operand.rename_inj]
        split <;> rfl

theorem scaleOf_rename :
    scaleOf mode (ins.rename p) (scale.rename p) = renameResult p id (scaleOf mode ins scale) := by
  cases scale with
  | reg r => rfl
  | mem m => rfl
  | imm s =>
      simp only [scaleOf, Operand.rename_imm]
      split <;> rfl

theorem dispOf_rename : dispOf (ins.rename p) d = renameResult p id (dispOf ins d) := by
  rw [dispOf, dispOf]
  split <;> rfl

theorem baseOf_rename :
    baseOf (ins.rename p) (base.rename p) =
      renameResult p (Address.rename p) (baseOf ins base) := by
  cases base with
  | reg r => rfl
  | mem m =>
      have hindex : (m.rename p).index.isNone = m.index.isNone := Option.isNone_map
      simp only [baseOf, Operand.rename_mem, hindex]
      split <;> rfl
  | imm k =>
      simp only [baseOf, Operand.rename_imm, dispOf_rename]
      exact renameResult_bind fun _ => rfl

theorem addIndex_rename :
    addIndex (ins.rename p) (m.rename p) k (index.rename p) =
      renameResult p (Address.rename p) (addIndex ins m k index) := by
  cases index with
  | reg r => rfl
  | mem m' => rfl
  | imm i =>
      have hdisp : (m.rename p).disp = m.disp := rfl
      simp only [addIndex, Operand.rename_imm, hdisp, dispOf_rename]
      exact renameResult_bind fun _ => rfl

theorem planScaled_rename (ins : Instruction) :
    planScaled mode (ins.rename p) op (dst.rename p) (base.rename p) (index.rename p)
        (scale.rename p) =
      renameResult p (Plan.rename p) (planScaled mode ins op dst base index scale) := by
  cases dst with
  | imm k => rfl
  | mem m => rfl
  | reg d =>
      simp only [planScaled, Operand.rename_reg, scaleOf_rename, baseOf_rename]
      refine renameResult_bind fun k => ?_
      refine renameResult_bind fun m => ?_
      rw [id, addIndex_rename]
      refine renameResult_bind fun sum => ?_
      rw [AddressingMode.check_rename]
      exact renameResult_bind fun _ => rfl

theorem plan_rename :
    (t.rename p).plan (ins.rename p) = renameResult p (Plan.rename p) (t.plan ins) := by
  cases ins with
  | nullary op =>
      simp only [plan, Instruction.rename, Instruction.mapOperands]
      split <;> rfl
  | unary op dst =>
      simp only [plan, Instruction.rename, Instruction.mapOperands, Operand.isImm_rename]
      split
      · rfl
      · split <;> rfl
  | binary op dst src =>
      simp only [plan, Instruction.rename, Instruction.mapOperands, Operand.isImm_rename]
      split
      · rfl
      · split
        · rfl
        · exact planBinary_rename (.binary op dst src)
  | ternary op dst a b =>
      simp only [plan, Instruction.rename, Instruction.mapOperands, Operand.isImm_rename]
      cases op.ternaryToBinary? with
      | none => rfl
      | some op =>
          simp only [strategy_rename]
          split <;> rfl
  | quaternary op dst base index scale =>
      simp only [plan, Instruction.rename, Instruction.mapOperands, addressing_rename]
      cases op.quaternaryToBinary? with
      | none => rfl
      | some binary =>
          cases t.addressing with
          | none => rfl
          | some mode => exact planScaled_rename (.quaternary op dst base index scale)

/-! ## Emission -/

theorem scratchFor_rename :
    (t.rename p).scratchFor (ins.rename p) = renameResult p p (t.scratchFor ins) := by
  rw [scratchFor, scratchFor, scratch_rename]
  cases t.scratch with
  | none => rfl
  | some s =>
      simp only [Option.map_some, Instruction.uses_rename]
      split <;> rfl

theorem operation_rename :
    (t.rename p).operation (ins.rename p) op (dst.rename p) (src.rename p) =
      renameResult p (List.map (Instruction.rename p)) (t.operation ins op dst src) := by
  simp only [operation, memoryToMemory_rename, Operand.isMem_rename, scratchFor_rename]
  split
  case isTrue => exact renameResult_bind fun _ => rfl
  case isFalse => rfl

theorem emit_rename :
    (t.rename p).emit (ins.rename p) (plan.rename p) =
      renameResult p (List.map (Instruction.rename p)) (t.emit ins plan) := by
  cases plan with
  | operate op dst src => exact operation_rename
  | reuse op dst b => exact operation_rename
  | commute op dst a => exact operation_rename
  | moveUnary op dst src =>
      simp only [emit, Plan.rename, operation_rename]
      refine renameResult_bind fun group => ?_
      simp only [renameResult, pure, Except.pure, List.map_append]
      rfl
  | negateAdd dst a =>
      simp only [emit, Plan.rename, operation_rename]
      exact renameResult_bind fun _ => rfl
  | viaScratch why op dst a b =>
      simp only [emit, Plan.rename, scratchFor_rename]
      exact renameResult_bind fun _ => rfl
  | _ => rfl

/-- The renamed instruction is lowered to the renamed group, or refused with the renamed
error. -/
theorem lower_rename :
    (t.rename p).lower (ins.rename p) =
      renameResult p (List.map (Instruction.rename p)) (t.lower ins) := by
  rw [lower, lower, plan_rename]
  exact renameResult_bind fun _ => emit_rename

end Target

end Planning

end TwoAddress
