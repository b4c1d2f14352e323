/-
# `Proofs.Assembly.Lowered` — which lowered code reads back as itself

Lowered code is printed, and what is printed is read back as the same code
except where an address is an index of scale one without a base. Such an address
has two sources. It may stand in the block already; or it is what the base, the
index and the scale of a four-operand instruction add up to. Nothing else makes
one: the sums that three-operand instructions are fused into have a base
(`base_of_fused`), and the other memory operands that are emitted are operands of
the block (`emits_justified`, `emits_binary`).

So whether the code of an instruction reads back as itself can be told from the
instruction alone (`Instruction.LoneIndexed`).
-/
import TwoAddress.Proofs.Assembly.RoundTrip
import TwoAddress.Proofs.Lowering.Addresses

namespace TwoAddress

/-- As the base of an address, the operand gives it a base register. -/
def Operand.hasBase : Operand → Bool
  | reg _ => true
  | mem a => a.base.isSome
  | imm _ => false

namespace Instruction

/-- What the instruction works on, or the address that it computes, is an index
of scale one without a base. -/
def LoneIndexed : Instruction → Prop
  | quaternary _ _ base index scale =>
      base.hasBase = false ∧ (∃ r, index = .reg r) ∧ scale = .imm 1
  | ins => ∃ a, .mem a ∈ ins.operands ∧ a.LoneIndex

end Instruction

namespace Target

variable {t : Target} {ins : Instruction} {group : List Instruction} {m : Address}

/-! ## Addresses that are computed -/

theorem base_of_baseOf {base : Operand} (h : baseOf ins base = .ok m) :
    m.index = none ∧ m.base.isSome = base.hasBase := by
  cases base with
  | reg r => cases h; exact ⟨rfl, rfl⟩
  | mem a =>
      simp only [baseOf] at h
      split at h
      case isTrue hnone => cases h; exact ⟨Option.isNone_iff_eq_none.mp hnone, rfl⟩
      case isFalse => exact nomatch h
  | imm k =>
      obtain ⟨d, _, hd⟩ := bind_eq_ok_iff.mp h
      cases hd
      exact ⟨rfl, rfl⟩

/-- The sum has an index exactly if a register is scaled, and it is a lone one
if nothing gives the sum a base. -/
theorem loneIndex_of_addIndex {index : Operand} {k : UInt8} {sum : Address}
    (hindex : m.index = none) (h : addIndex ins m k index = .ok sum) :
    sum.LoneIndex ↔ m.base = none ∧ (∃ r, index = .reg r) ∧ k = 1 := by
  cases index with
  | reg r =>
      cases h
      simp [Address.LoneIndex, Address.withIndex]
  | imm i =>
      obtain ⟨d, _, hd⟩ := bind_eq_ok_iff.mp h
      cases hd
      simp [Address.LoneIndex, Address.withDisp, hindex]
  | mem a => cases h

theorem scale_eq_one_iff {mode : AddressingMode} {scale : Operand} {k : UInt8}
    (h : scaleOf mode ins scale = .ok k) : k = 1 ↔ scale = .imm 1 := by
  obtain ⟨s, rfl, hu, _⟩ := scaleOf_eq_ok_iff.mp h
  have hvalue : (k.toNat : Int) = s.toInt := uint8?_eq_some_iff.mp hu
  have hone : (1 : Int64).toInt = 1 := rfl
  rw [Operand.imm.injEq, ← Int64.toInt_inj, ← UInt8.toNat_inj, hone, ← hvalue]
  show k.toNat = 1 ↔ _
  omega

/-- The code of an instruction has a lone index exactly if the instruction has
one or computes one. -/
theorem emits_loneIndex_iff (h : t.lower ins = .ok group) :
    (∃ m, Emits group m ∧ m.LoneIndex) ↔ ins.LoneIndexed := by
  cases ins with
  | nullary op =>
      obtain rfl := lower_nullary h
      simp [Instruction.LoneIndexed]
  | unary op dst =>
      obtain ⟨_, rfl⟩ := lower_unary h
      simp [Instruction.LoneIndexed]
  | binary op dst src =>
      simp only [emits_binary h, Instruction.LoneIndexed, Instruction.mem_operands_binary]
  | ternary op3 dst a b =>
      obtain ⟨op, plan, _, _, hj, he⟩ := lower_ternary h
      simp only [Instruction.LoneIndexed, Instruction.mem_operands_ternary, emits_justified hj he]
      refine exists_congr ?_
      intro m
      refine and_congr_left ?_
      rintro ⟨hbase, _⟩
      refine or_iff_right ?_
      rintro ⟨d, rfl⟩
      exact base_of_fused hj hbase
  | quaternary op4 dst base index scale =>
      obtain ⟨mode, d, k, a, sum, _, _, rfl, hk, ha, hsum, _, rfl⟩ := lower_quaternary h
      obtain ⟨hindex, hbase⟩ := base_of_baseOf ha
      have hnone : a.base = none ↔ base.hasBase = false := by
        rw [← hbase, Option.isSome_eq_false_iff, Option.isNone_iff_eq_none]
      simp [Instruction.LoneIndexed, loneIndex_of_addIndex hindex hsum, hnone, scale_eq_one_iff hk]

/-! ## Blocks -/

open Carry

theorem Takes.arity_le_two (h : t.Takes ins) : ins.tier.arity ≤ 2 := by
  cases h with
  | nullary _ => exact Nat.zero_le 2
  | unary _ _ => exact Nat.le_succ 1
  | address _ _ => exact Nat.le_refl 2
  | binary _ _ _ => exact Nat.le_refl 2

/-- Lowered code is of at most two operands, each item comes from a place of the
block, and its text is read back as its normal form. From one place comes code
that reads back as itself exactly if the instruction there neither has an address
of an index of scale one without a base nor computes one. -/
theorem lowerBlock_text (t : Target) (block : List Instruction) (out : LoweredBlock)
    (hout : t.lowerBlock block = .ok out) :
    (∀ x ∈ out.items, x.instruction.tier.arity ≤ 2 ∧ x.origin < block.length ∧
      Assembly.instruction x.instruction.render = .ok x.instruction.normal) ∧
    ∀ i ins, block[i]? = some ins →
      ((∀ x ∈ out.items, x.origin = i →
          Assembly.instruction x.instruction.render = .ok x.instruction) ↔
        ¬ ins.LoneIndexed) := by
  obtain ⟨_, _, groups, hgroups, rfl⟩ := clean_of_lowerBlock hout
  refine ⟨?_, ?_⟩
  · intro x hx
    obtain ⟨group, hgroup, hmem, _⟩ := mem_items_iff.mp hx
    obtain ⟨ins, hins, hlow⟩ := exists_origin hgroups hgroup
    exact ⟨(takes_of_lower hlow x.instruction hmem).arity_le_two,
      (List.getElem?_eq_some_iff.mp hins).1, Assembly.read_render x.instruction⟩
  · intro i ins hins
    obtain ⟨group, hgroup, hlow⟩ := exists_lower hgroups hins
    rw [← emits_loneIndex_iff hlow]
    constructor
    · rintro hall ⟨m, ⟨g, hg, hm⟩, hlone⟩
      have hitem := hall ⟨g, decide g.Inert, i⟩ (mem_items_iff.mpr ⟨group, hgroup, hg, rfl⟩) rfl
      rw [Assembly.read_render, Except.ok.injEq, Instruction.normal_eq_self_iff] at hitem
      exact hitem m hm hlone
    · rintro hnone x hx rfl
      obtain ⟨group', hgroup', hmem, _⟩ := mem_items_iff.mp hx
      obtain rfl := Option.some.inj (hgroup.symm.trans hgroup')
      rw [Assembly.read_render, Except.ok.injEq, Instruction.normal_eq_self_iff]
      intro m hm hlone
      exact hnone ⟨m, ⟨x.instruction, hmem, hm⟩, hlone⟩

/-- A sum that is fused reads back as itself; a register scaled by one and put on
top of a number does not. -/
theorem lowerBlock_text_sum_and_scaled_index :
    let block : List Instruction :=
      [.ternary .add3 (.reg ⟨2⟩) (.reg ⟨0⟩) (.imm 1),
        .quaternary .lea4 (.reg ⟨0⟩) (.imm 16) (.reg ⟨1⟩) (.imm 1)]
    let out : LoweredBlock :=
      ⟨[⟨.binary .lea (.reg ⟨2⟩) (.mem ⟨some ⟨0⟩, none, 1⟩), true, 0⟩,
        ⟨.binary .lea (.reg ⟨0⟩) (.mem ⟨none, some ⟨⟨1⟩, 1⟩, 16⟩), true, 1⟩]⟩
    Assembly.block "ADD3 R2, R0, 1\nLEA4 R0, 16, R1, 1".toList = .ok block ∧
      amd64.lowerBlock block = .ok out ∧
      (∀ x ∈ out.items, x.origin = 0 →
        Assembly.instruction x.instruction.render = .ok x.instruction) ∧
      ¬ ∀ x ∈ out.items, x.origin = 1 →
        Assembly.instruction x.instruction.render = .ok x.instruction := by
  intro block out
  have hout : amd64.lowerBlock block = .ok out := rfl
  have h := (lowerBlock_text amd64 block out hout).2
  refine ⟨rfl, hout, (h 0 _ rfl).mpr ?_, ?_⟩
  · rintro ⟨m, hm, _⟩
    simp at hm
  · intro hall
    exact (h 1 _ rfl).mp hall ⟨rfl, ⟨⟨1⟩, rfl⟩, rfl⟩

/-- Not all lowered code reads back as itself: here the scaled index comes back
as the base. -/
theorem scaled_index_read_back_as_base :
    let x : Lowered := ⟨.binary .lea (.reg ⟨0⟩) (.mem ⟨none, some ⟨⟨1⟩, 1⟩, 16⟩), true, 0⟩
    ∃ block, Assembly.block "LEA4 R0, 16, R1, 1".toList = .ok block ∧
      amd64.lowerBlock block = .ok ⟨[x]⟩ ∧
      x.instruction.render = "LEA R0, [R1+16]".toList ∧
      Assembly.instruction x.instruction.render =
        .ok (.binary .lea (.reg ⟨0⟩) (.mem ⟨some ⟨1⟩, none, 16⟩)) ∧
      Assembly.instruction x.instruction.render ≠ .ok x.instruction := by
  intro x
  have hread : Assembly.instruction x.instruction.render =
      .ok (.binary .lea (.reg ⟨0⟩) (.mem ⟨some ⟨1⟩, none, 16⟩)) := Assembly.read_render _
  refine ⟨_, rfl, rfl, by decide, hread, ?_⟩
  rw [hread, ne_eq, Except.ok.injEq]
  decide

end Target

end TwoAddress
