/-
# `Proofs.Lowering.Strategy` — what a successful lowering has gone through

`Target.lower` succeeds along many branches, and every later proof would have
to take them apart again. It is done once here. `Plan.Justified` lists, for
each plan of a three-operand instruction, the facts under which it is chosen;
`strategy_justified` says that the plan chosen is justified. The lemmas
`operation_eq_ok_iff` and `scratchFor_eq_ok_iff` say what is written out, so
that the later modules never open `operation` or `scratchFor`.
-/
import TwoAddress.Emission
import TwoAddress.Proofs.Except

namespace TwoAddress

/-! ## Operands -/

/-- Writing `dst` cannot change `o`: the two ways in which it could are
excluded one by one. -/
theorem Operand.mayChangeWith_eq_false_iff {o dst : Operand} :
    o.mayChangeWith dst = false ↔
      o.dependsOn dst = false ∧ (dst.isMem = true → o.isMem = false) := by
  simp [mayChangeWith]

namespace Opcode

theorem ternaryToBinary?_ordinary {op3 : Opcode .ternary} {op : Opcode .binary}
    (h : op3.ternaryToBinary? = some op) : op ≠ .lea ∧ op ≠ .mov ∧ op.toUnary? = none := by
  have table : ∀ x ∈ ternaryTable, x.2 ≠ .lea ∧ x.2 ≠ .mov ∧ x.2.toUnary? = none := by decide
  exact table _ (mem_of_lookup h)

end Opcode

/-! ## Plans of three operands -/

/-- When a plan computes `dst := a op b`: the facts about the operands on which
each of them rests. -/
inductive Plan.Justified (t : Target) (op : Opcode .binary) (dst a b : Operand) : Plan → Prop
  | reuse : dst = a → Justified t op dst a b (.reuse op dst b)
  | fuse {d : Reg} {sum : Address} : dst ≠ a → t.fusion? op dst a b = some (d, sum) →
      Justified t op dst a b (.fuse d sum)
  | commute : dst ≠ a → dst = b → op.isCommutative = true →
      Justified t op dst a b (.commute op dst a)
  | negateAdd : dst = b → op = .sub → a.mayChangeWith dst = false →
      Justified t op dst a b (.negateAdd dst a)
  | commuteMove : b.dependsOn dst = true → op.isCommutative = true →
      a.mayChangeWith dst = false → Justified t op dst a b (.commuteMove op dst a b)
  | viaScratch {why : ScratchReason} : dst ≠ a →
      Justified t op dst a b (.viaScratch why op dst a b)
  | moveOperate : b.mayChangeWith dst = false →
      (dst.isMem = true → a.isMem = true → t.memoryToMemory = true) →
      Justified t op dst a b (.moveOperate op dst a b)

namespace Target

variable {t : Target} {ins : Instruction} {group : List Instruction}

theorem strategy_justified (t : Target) (op : Opcode .binary) (dst a b : Operand) :
    Plan.Justified t op dst a b (t.strategy op dst a b) := by
  rw [strategy]
  split
  case isTrue same => exact .reuse same
  case isFalse apart =>
    split
    case h_1 d sum hf => exact .fuse apart hf
    case h_2 hf =>
      split
      case isTrue second =>
        split
        case isTrue hc => exact .commute apart second hc
        case isFalse =>
          split
          case isTrue hs => exact .negateAdd second hs.1 hs.2
          case isFalse => exact .viaScratch apart
      case isFalse =>
        split
        case isTrue through =>
          split
          case isTrue hc => exact .commuteMove through hc.1 hc.2
          case isFalse => exact .viaScratch apart
        case isFalse through =>
          split
          case isTrue => exact .viaScratch apart
          case isFalse overlap =>
            split
            case isTrue => exact .viaScratch apart
            case isFalse both =>
              -- the last three tests, taken together, are `mayChangeWith`
              refine .moveOperate (Operand.mayChangeWith_eq_false_iff.mpr ⟨?_, ?_⟩) ?_
              · simpa using through
              · intro hd
                simpa [hd] using overlap
              · intro hd ha
                simpa [hd, ha] using both

/-! ## What is written out -/

theorem scratchFor_eq_ok_iff {s : Reg} :
    t.scratchFor ins = .ok s ↔ t.scratch = some s ∧ ins.uses s = false := by
  rw [scratchFor]
  split
  case h_1 h => simp [h]
  case h_2 r h =>
    split
    case isTrue hu =>
      constructor
      · intro he
        exact nomatch he
      · rintro ⟨hs, hf⟩
        rw [h, Option.some.injEq] at hs
        exact absurd (hs ▸ hu) (by simp [hf])
    case isFalse hu =>
      rw [h, Except.ok.injEq, Option.some.injEq]
      exact ⟨fun e => ⟨e, e ▸ by simpa using hu⟩, fun e => e.1⟩

/-- The scratch register, if it may be overwritten while `ins` is computed. -/
def lent (t : Target) (ins : Instruction) : Option Reg :=
  t.scratch.filter fun r => !ins.uses r

theorem lent_eq_some_iff {r : Reg} :
    t.lent ins = some r ↔ t.scratch = some r ∧ ins.uses r = false := by
  simp [lent, Option.filter_eq_some_iff]

/-- An operation is written as it stands or, on two memory operands that the
target does not take together, with its source copied first. -/
theorem operation_eq_ok_iff {op : Opcode .binary} {dst src : Operand} :
    t.operation ins op dst src = .ok group ↔
      ((dst.isMem = true → src.isMem = true → t.memoryToMemory = true) ∧
        group = [.binary op dst src]) ∨
      (t.memoryToMemory = false ∧ dst.isMem = true ∧ src.isMem = true ∧
        ∃ s, t.scratch = some s ∧ ins.uses s = false ∧
          group = [.binary .mov (.reg s) src, .binary op dst (.reg s)]) := by
  rw [operation]
  split
  case isTrue h =>
    obtain ⟨hm, hd, hs⟩ := h
    rw [bind_eq_ok_iff]
    constructor
    · rintro ⟨s, hfree, he⟩
      obtain ⟨hscratch, hu⟩ := scratchFor_eq_ok_iff.mp hfree
      cases he
      exact .inr ⟨hm, hd, hs, s, hscratch, hu, rfl⟩
    · rintro (⟨hboth, _⟩ | ⟨_, _, _, s, hscratch, hu, rfl⟩)
      · exact absurd (hboth hd hs) (by simp [hm])
      · exact ⟨s, scratchFor_eq_ok_iff.mpr ⟨hscratch, hu⟩, rfl⟩
  case isFalse h =>
    constructor
    · intro he
      cases he
      refine .inl ⟨?_, rfl⟩
      intro hd hs
      simpa [hd, hs] using h
    · rintro (⟨_, rfl⟩ | ⟨hm, hd, hs, _⟩)
      · rfl
      · exact absurd ⟨hm, hd, hs⟩ h

theorem lower_eq_ok_iff :
    t.lower ins = .ok group ↔ ∃ plan, t.plan ins = .ok plan ∧ t.emit ins plan = .ok group :=
  bind_eq_ok_iff

theorem lower_nullary {op : Opcode .nullary} (h : t.lower (.nullary op) = .ok group) :
    group = [.nullary op] := by
  obtain ⟨plan, hp, he⟩ := lower_eq_ok_iff.mp h
  simp only [Target.plan] at hp
  split at hp
  case isTrue =>
    cases hp
    cases he
    rfl
  case isFalse => exact nomatch hp

theorem lower_unary {op : Opcode .unary} {dst : Operand}
    (h : t.lower (.unary op dst) = .ok group) : dst.isImm = false ∧ group = [.unary op dst] := by
  obtain ⟨plan, hp, he⟩ := lower_eq_ok_iff.mp h
  simp only [Target.plan] at hp
  split at hp
  case isTrue => exact nomatch hp
  case isFalse =>
    split at hp
    case isTrue => exact nomatch hp
    case isFalse hi =>
      cases hp
      cases he
      exact ⟨by simpa using hi, rfl⟩

/-- What a two-operand instruction becomes, with the facts on which it rests. -/
inductive BinaryGroup (t : Target) (op : Opcode .binary) (dst src : Operand) :
    List Instruction → Prop
  | address {mode : AddressingMode} {d : Reg} {a : Address} : op = .lea →
      t.addressing = some mode → dst = .reg d → src = .mem a → mode.check a = .ok () →
      BinaryGroup t op dst src [.binary op dst src]
  | inPlace {unary : Opcode .unary} : op.toUnary? = some unary → dst = src →
      BinaryGroup t op dst src [.unary unary dst]
  | copied {unary : Opcode .unary} {copy : List Instruction} : op.toUnary? = some unary →
      t.operation (.binary op dst src) .mov dst src = .ok copy →
      BinaryGroup t op dst src (copy ++ [.unary unary dst])
  | operated {group : List Instruction} : op ≠ .lea → op.toUnary? = none →
      t.operation (.binary op dst src) op dst src = .ok group →
      BinaryGroup t op dst src group

theorem planAddress_eq_ok {dst src : Operand} {plan : Plan}
    (h : t.planAddress ins dst src = .ok plan) :
    plan = .keep ∧ ∃ mode d a, t.addressing = some mode ∧ dst = .reg d ∧ src = .mem a ∧
      mode.check a = .ok () := by
  unfold Target.planAddress at h
  split at h
  case h_1 => exact nomatch h
  case h_2 mode a d haddr =>
    obtain ⟨_, hcheck, hplan⟩ := bind_eq_ok_iff.mp h
    cases hplan
    exact ⟨rfl, mode, d, a, haddr, rfl, rfl, hcheck⟩
  case h_3 => exact nomatch h
  case h_4 => exact nomatch h

theorem lower_binary {op : Opcode .binary} {dst src : Operand}
    (h : t.lower (.binary op dst src) = .ok group) :
    dst.isImm = false ∧ BinaryGroup t op dst src group := by
  obtain ⟨plan, hp, he⟩ := lower_eq_ok_iff.mp h
  simp only [Target.plan, Target.planBinary] at hp
  split at hp
  case isTrue => exact nomatch hp
  case isFalse =>
    split at hp
    case isTrue => exact nomatch hp
    case isFalse hi =>
      refine ⟨by simpa using hi, ?_⟩
      split at hp
      case isTrue hlea =>
        obtain ⟨rfl, mode, d, a, haddr, hd, ha, hcheck⟩ := planAddress_eq_ok hp
        cases he
        exact .address hlea haddr hd ha hcheck
      case isFalse hlea =>
        split at hp
        case h_1 unary hu =>
          split at hp
          case isTrue same =>
            cases hp
            cases he
            exact .inPlace hu same
          case isFalse =>
            cases hp
            obtain ⟨copy, hcopy, hgroup⟩ := bind_eq_ok_iff.mp he
            cases hgroup
            exact .copied hu hcopy
        case h_2 hu =>
          cases hp
          exact .operated hlea hu he

theorem scaleOf_eq_ok_iff {mode : AddressingMode} {o : Operand} {k : UInt8} :
    scaleOf mode ins o = .ok k ↔ ∃ s, o = .imm s ∧ uint8? s.toInt = some k ∧ k ∈ mode.scales := by
  cases o with
  | reg r => simp [scaleOf]
  | mem a => simp [scaleOf]
  | imm s =>
      simp only [scaleOf]
      have hfilter (k : UInt8) : (uint8? s.toInt).filter mode.supportsScale = some k ↔
          uint8? s.toInt = some k ∧ k ∈ mode.scales := by
        simp [Option.filter_eq_some_iff, AddressingMode.supportsScale]
      split
      case h_1 scale hscale =>
        constructor
        · intro h
          cases h
          obtain ⟨hu, hmem⟩ := (hfilter k).mp hscale
          exact ⟨s, rfl, hu, hmem⟩
        · rintro ⟨s', hs, hu, hmem⟩
          cases hs
          rw [(hfilter k).mpr ⟨hu, hmem⟩, Option.some.injEq] at hscale
          rw [hscale]
      case h_2 hnone =>
        constructor
        · intro h
          cases h
        · rintro ⟨s', hs, hu, hmem⟩
          cases hs
          rw [(hfilter k).mpr ⟨hu, hmem⟩] at hnone
          cases hnone

/-- A lowered four-operand instruction loads the address that its base, index
and scale add up to. -/
theorem lower_quaternary {op4 : Opcode .quaternary} {dst base index scale : Operand}
    (h : t.lower (.quaternary op4 dst base index scale) = .ok group) :
    let ins := Instruction.quaternary op4 dst base index scale
    ∃ mode d k a sum, op4.quaternaryToBinary? = some .lea ∧ t.addressing = some mode ∧
      dst = .reg d ∧ scaleOf mode ins scale = .ok k ∧ baseOf ins base = .ok a ∧
      addIndex ins a k index = .ok sum ∧ mode.check sum = .ok () ∧
      group = [.binary .lea (.reg d) (.mem sum)] := by
  obtain ⟨plan, hp, he⟩ := lower_eq_ok_iff.mp h
  simp only [Target.plan] at hp
  split at hp
  case h_2 => exact nomatch hp
  case h_1 op mode hop haddr =>
    have hlea : op = .lea := by
      have table : ∀ x ∈ Opcode.quaternaryTable, x.2 = .lea := by decide
      exact table _ (Opcode.mem_of_lookup hop)
    subst hlea
    cases dst with
    | imm k => exact nomatch hp
    | mem a => exact nomatch hp
    | reg d =>
        obtain ⟨k, hk, hp⟩ := bind_eq_ok_iff.mp hp
        obtain ⟨a, ha, hp⟩ := bind_eq_ok_iff.mp hp
        obtain ⟨sum, hsum, hp⟩ := bind_eq_ok_iff.mp hp
        obtain ⟨_, hcheck, hp⟩ := bind_eq_ok_iff.mp hp
        cases hp
        cases he
        exact ⟨mode, d, k, a, sum, hop, haddr, rfl, hk, ha, hsum, hcheck, rfl⟩

theorem plan_ternary {op3 : Opcode .ternary} {dst a b : Operand} {plan : Plan}
    (h : t.plan (.ternary op3 dst a b) = .ok plan) :
    ∃ op, op3.ternaryToBinary? = some op ∧ dst.isImm = false ∧ plan = t.strategy op dst a b := by
  simp only [Target.plan] at h
  split at h
  case h_1 => exact nomatch h
  case h_2 op hop =>
    split at h
    case isTrue => exact nomatch h
    case isFalse hi =>
      cases h
      exact ⟨op, hop, by simpa using hi, rfl⟩

/-- A lowered three-operand instruction has a two-operand counterpart, a
destination that can be written, and a justified plan. -/
theorem lower_ternary {op3 : Opcode .ternary} {dst a b : Operand}
    (h : t.lower (.ternary op3 dst a b) = .ok group) :
    ∃ op plan, op3.ternaryToBinary? = some op ∧ dst.isImm = false ∧
      Plan.Justified t op dst a b plan ∧ t.emit (.ternary op3 dst a b) plan = .ok group := by
  obtain ⟨plan, hp, he⟩ := lower_eq_ok_iff.mp h
  obtain ⟨op, hop, hi, rfl⟩ := plan_ternary hp
  exact ⟨op, _, hop, hi, t.strategy_justified op dst a b, he⟩

end Target

end TwoAddress
