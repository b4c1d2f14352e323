/-
# `Proofs.Lowering.Addresses` — which addresses lowered code has

The memory operands of lowered code are those of the block, passed on as they
are, and the addresses that lowering makes up: sums that are fused, and what the
operands of a four-operand instruction add up to (`emits_justified`,
`emits_binary`, `emits_quaternary`).

An addressing mode says what the target's memory operands can be, but only an
address computation is held to it. What lowering makes up is checked, and so is
the source of every `LEA`; an address that is passed on to any other operation is
not. So the code of an instruction is encoded exactly if the instruction brings
no other addresses along (`lowerBlock_addresses`), and a block that does is
lowered all the same (`unencoded_address_passed_on`).
-/
import TwoAddress.Proofs.Lowering.Acceptance
import TwoAddress.Proofs.Lowering.Native

namespace TwoAddress

/-- The addresses that the code of an instruction takes over from it are encoded.
Those of a four-operand instruction are not taken over but added up. -/
def Instruction.Encoded (mode : AddressingMode) : Instruction → Prop
  | quaternary .. => True
  | ins => ∀ a, .mem a ∈ ins.operands → mode.check a = .ok ()

namespace Target

/-- The address is an operand of one of the instructions. -/
def Emits (group : List Instruction) (a : Address) : Prop :=
  ∃ g ∈ group, .mem a ∈ g.operands

variable {t : Target} {ins g : Instruction} {group rest : List Instruction}
  {op : Opcode .binary} {dst src a b : Operand} {m : Address}

@[simp] theorem emits_nil : ¬ Emits [] m :=
  fun ⟨_, h, _⟩ => nomatch h

@[simp] theorem emits_cons : Emits (g :: rest) m ↔ .mem m ∈ g.operands ∨ Emits rest m := by
  simp [Emits]

@[simp] theorem emits_append : Emits (group ++ rest) m ↔ Emits group m ∨ Emits rest m := by
  simp [Emits, or_and_right, exists_or]

/-! ## Addresses of the block -/

theorem emits_operation (h : t.operation ins op dst src = .ok group) :
    Emits group m ↔ .mem m = dst ∨ .mem m = src := by
  rcases operation_eq_ok_iff.mp h with ⟨_, rfl⟩ | ⟨_, _, _, s, _, _, rfl⟩
  · simp
  · simp [or_comm]

/-- The operands of a sum that is an address: two registers, or a register and a
number. -/
inductive SumOf : Operand → Operand → Address → Prop
  | registers (x y : Reg) : SumOf (.reg x) (.reg y) ((Address.ofReg x).withIndex y 1)
  | numberSecond (x : Reg) (k : Int64) (d : Int32) :
      SumOf (.reg x) (.imm k) ((Address.ofReg x).withDisp d)
  | numberFirst (k : Int64) (x : Reg) (d : Int32) :
      SumOf (.imm k) (.reg x) ((Address.ofReg x).withDisp d)

theorem sumOf_of_sumAddress? {sum : Address} (h : sumAddress? op a b = some sum) :
    SumOf a b sum := by
  unfold sumAddress? at h
  split at h
  case h_1 x y =>
    split at h
    case isTrue =>
      cases h
      exact .registers x y
    case isFalse => exact nomatch h
  case h_2 x k =>
    split at h
    case isTrue =>
      obtain ⟨d, _, rfl⟩ := Option.map_eq_some_iff.mp h
      exact .numberSecond x k d
    case isFalse =>
      split at h
      case isTrue =>
        obtain ⟨d, _, rfl⟩ := Option.map_eq_some_iff.mp h
        exact .numberSecond x k d
      case isFalse => exact nomatch h
  case h_3 k x =>
    split at h
    case isTrue =>
      obtain ⟨d, _, rfl⟩ := Option.map_eq_some_iff.mp h
      exact .numberFirst k x d
    case isFalse => exact nomatch h
  case h_4 => exact nomatch h

theorem SumOf.base {sum : Address} (h : SumOf a b sum) :
    sum.base ≠ none ∧ a.isMem = false ∧ b.isMem = false := by
  cases h with
  | registers x y => exact ⟨Option.some_ne_none x, rfl, rfl⟩
  | numberSecond x k d => exact ⟨Option.some_ne_none x, rfl, rfl⟩
  | numberFirst k x d => exact ⟨Option.some_ne_none x, rfl, rfl⟩

theorem ne_of_isMem (h : a.isMem = false) : .mem m ≠ a := by
  rintro rfl
  exact nomatch h

theorem fusion?_of_justified {plan : Plan} {d : Reg} (hj : Plan.Justified t op dst a b plan)
    (hplan : plan = .fuse d m) : t.fusion? op dst a b = some (d, m) := by
  cases hj with
  | fuse _ hf =>
      cases hplan
      exact hf
  | reuse _ => exact nomatch hplan
  | commute _ _ _ => exact nomatch hplan
  | negateAdd _ _ _ => exact nomatch hplan
  | commuteMove _ _ _ => exact nomatch hplan
  | viaScratch _ => exact nomatch hplan
  | moveOperate _ _ => exact nomatch hplan

theorem base_of_fused {d : Reg} (hj : Plan.Justified t op dst a b (.fuse d m)) :
    m.base ≠ none := by
  obtain ⟨_, _, hsum, _⟩ := fusion?_eq_some (fusion?_of_justified hj rfl)
  exact (sumOf_of_sumAddress? hsum).base.1

/-- The code for `dst := a op b` has the addresses that are operands, and the sum
that it is fused into. One case for each reason for which a plan is chosen. -/
theorem emits_justified {plan : Plan} (hj : Plan.Justified t op dst a b plan)
    (h : t.emit ins plan = .ok group) :
    Emits group m ↔ (∃ d, plan = .fuse d m) ∨ .mem m = dst ∨ .mem m = a ∨ .mem m = b := by
  cases hj with
  | reuse same =>
      subst same
      rw [emits_operation h]
      simp
  | @fuse d sum _ hf =>
      cases h
      obtain ⟨_, rfl, hsum, _⟩ := fusion?_eq_some hf
      obtain ⟨_, ha, hb⟩ := (sumOf_of_sumAddress? hsum).base
      simp [ne_of_isMem ha, ne_of_isMem hb, eq_comm]
  | commute _ same _ =>
      subst same
      rw [emits_operation h]
      simp [or_comm]
  | negateAdd same _ _ =>
      subst same
      obtain ⟨sum, hsum, hgroup⟩ := bind_eq_ok_iff.mp h
      cases hgroup
      simp only [emits_cons, Instruction.mem_operands_unary, emits_operation hsum, reduceCtorEq,
        exists_false, false_or]
      grind
  | commuteMove _ _ _ =>
      cases h
      simp only [emits_cons, emits_nil, Instruction.mem_operands_binary, reduceCtorEq,
        exists_false, false_or]
      grind
  | viaScratch _ =>
      obtain ⟨s, _, hgroup⟩ := bind_eq_ok_iff.mp h
      cases hgroup
      simp only [emits_cons, emits_nil, Instruction.mem_operands_binary, reduceCtorEq,
        exists_false, false_or]
      grind
  | moveOperate _ _ =>
      cases h
      simp only [emits_cons, emits_nil, Instruction.mem_operands_binary, reduceCtorEq,
        exists_false, false_or]
      grind

theorem emits_binary (h : t.lower (.binary op dst src) = .ok group) :
    Emits group m ↔ .mem m = dst ∨ .mem m = src := by
  obtain ⟨_, hgroup⟩ := lower_binary h
  cases hgroup with
  | address _ _ _ _ _ => simp
  | inPlace _ same =>
      subst same
      simp
  | copied _ hcopy => simp [emits_operation hcopy, or_right_comm]
  | operated _ _ hg => exact emits_operation hg

/-! ## Addresses that are encoded -/

variable {mode : AddressingMode}

theorem check_of_fused {d : Reg} (haddr : t.addressing = some mode)
    (hj : Plan.Justified t op dst a b (.fuse d m)) : mode.check m = .ok () := by
  obtain ⟨_, _, _, mode', haddr', hfits⟩ := fusion?_eq_some (fusion?_of_justified hj rfl)
  obtain rfl := Option.some.inj (haddr.symm.trans haddr')
  exact AddressingMode.check_eq_ok_iff.mpr hfits

theorem check_of_quaternary {op4 : Opcode .quaternary} {base index scale : Operand}
    (haddr : t.addressing = some mode)
    (h : t.lower (.quaternary op4 dst base index scale) = .ok group) (hm : Emits group m) :
    mode.check m = .ok () := by
  obtain ⟨mode', d, k, x, sum, _, haddr', _, _, _, _, hcheck, rfl⟩ := lower_quaternary h
  obtain rfl := Option.some.inj (haddr.symm.trans haddr')
  have hsum : m = sum := by simpa using hm
  exact hsum ▸ hcheck

/-- The code of an instruction is encoded exactly if what it takes over is. -/
theorem check_emits_iff (haddr : t.addressing = some mode) (h : t.lower ins = .ok group) :
    (∀ m, Emits group m → mode.check m = .ok ()) ↔ ins.Encoded mode := by
  cases ins with
  | nullary op =>
      obtain rfl := lower_nullary h
      simp [Instruction.Encoded]
  | unary op dst =>
      obtain ⟨_, rfl⟩ := lower_unary h
      simp [Instruction.Encoded]
  | binary op dst src => simp [emits_binary h, Instruction.Encoded]
  | ternary op3 dst a b =>
      obtain ⟨op, plan, _, _, hj, he⟩ := lower_ternary h
      simp only [Instruction.Encoded, Instruction.mem_operands_ternary, emits_justified hj he]
      refine forall_congr' ?_
      intro m
      constructor
      · intro hall hm
        exact hall (.inr hm)
      · rintro hown (⟨d, rfl⟩ | hm)
        · exact check_of_fused haddr hj
        · exact hown hm
  | quaternary op4 dst base index scale =>
      exact iff_of_true (fun m hm => check_of_quaternary haddr h hm) trivial

open Carry

/-- On a target with an addressing mode, the address of every `LEA` in lowered code
is encoded. The other addresses that come from one place of the block are encoded
exactly if those of the instruction there are, unless it has four operands. -/
theorem lowerBlock_addresses (t : Target) (mode : AddressingMode)
    (haddr : t.addressing = some mode) (block : List Instruction) (out : LoweredBlock)
    (hout : t.lowerBlock block = .ok out) :
    (∀ x ∈ out.items, ∀ dst src, x.instruction = .binary .lea dst src →
      ∃ a, src = .mem a ∧ mode.check a = .ok ()) ∧
    ∀ i ins, block[i]? = some ins →
      ((∀ x ∈ out.items, x.origin = i → ∀ a, .mem a ∈ x.instruction.operands →
          mode.check a = .ok ()) ↔
        ins.Encoded mode) := by
  obtain ⟨_, _, groups, hgroups, rfl⟩ := clean_of_lowerBlock hout
  refine ⟨?_, ?_⟩
  · intro x hx dst src hlea
    obtain ⟨group, hgroup, hmem, _⟩ := mem_items_iff.mp hx
    obtain ⟨ins, _, hlow⟩ := exists_origin hgroups hgroup
    cases hlea ▸ takes_of_lower hlow x.instruction hmem with
    | @address mode' d a haddr' hfits =>
        obtain rfl := Option.some.inj (haddr.symm.trans haddr')
        exact ⟨a, rfl, AddressingMode.check_eq_ok_iff.mpr hfits⟩
    | binary hop _ _ => exact absurd rfl hop.not_lea
  · intro i ins hins
    obtain ⟨group, hgroup, hlow⟩ := exists_lower hgroups hins
    rw [← check_emits_iff haddr hlow]
    constructor
    · rintro hall m ⟨g, hg, hm⟩
      exact hall ⟨g, decide g.Inert, i⟩ (mem_items_iff.mpr ⟨group, hgroup, hg, rfl⟩) rfl m hm
    · rintro hall x hx rfl a ha
      obtain ⟨group', hgroup', hmem, _⟩ := mem_items_iff.mp hx
      obtain rfl := Option.some.inj (hgroup.symm.trans hgroup')
      exact hall a ⟨x.instruction, hmem, ha⟩

/-- A sum in memory is encoded, by way of the scratch register too; a copy from
three times a register is not. -/
theorem lowerBlock_addresses_sum_and_copy :
    let t := amd64WithScratch ⟨15⟩
    let cell : Operand := .mem ⟨some ⟨2⟩, some ⟨⟨3⟩, 8⟩, -16⟩
    let block : List Instruction :=
      [.ternary .add3 cell cell (.mem (.ofReg ⟨4⟩)),
        .binary .mov (.reg ⟨0⟩) (.mem ⟨none, some ⟨⟨1⟩, 3⟩, 0⟩)]
    let out : LoweredBlock :=
      ⟨[⟨.binary .mov (.reg ⟨15⟩) (.mem (.ofReg ⟨4⟩)), false, 0⟩,
        ⟨.binary .add cell (.reg ⟨15⟩), false, 0⟩,
        ⟨.binary .mov (.reg ⟨0⟩) (.mem ⟨none, some ⟨⟨1⟩, 3⟩, 0⟩), false, 1⟩]⟩
    t.addressing = some .full ∧ t.lowerBlock block = .ok out ∧
      (∀ x ∈ out.items, x.origin = 0 → ∀ a, .mem a ∈ x.instruction.operands →
        AddressingMode.full.check a = .ok ()) ∧
      ¬ ∀ x ∈ out.items, x.origin = 1 → ∀ a, .mem a ∈ x.instruction.operands →
        AddressingMode.full.check a = .ok () := by
  intro t cell block out
  have hout : t.lowerBlock block = .ok out := rfl
  have h := (lowerBlock_addresses t .full rfl block out hout).2
  refine ⟨rfl, hout, (h 0 _ rfl).mpr ?_, ?_⟩
  · intro a ha
    rcases Instruction.mem_operands_ternary.mp ha with ha | ha | ha
    · cases Operand.mem.inj ha
      rfl
    · cases Operand.mem.inj ha
      rfl
    · cases Operand.mem.inj ha
      rfl
  · intro hall
    have hcheck := (h 1 _ rfl).mp hall ⟨none, some ⟨⟨1⟩, 3⟩, 0⟩ (by simp)
    exact nomatch hcheck

/-- Not all lowered code is encoded: three times a register is no address of the
machine, and while an address computation of it is refused, a copy from there is
passed on. -/
theorem unencoded_address_passed_on :
    let a : Address := ⟨none, some ⟨⟨1⟩, 3⟩, 0⟩
    let misfit : Error := .misfit (.scale a 3 [1, 2, 4, 8])
    amd64.addressing = some .full ∧ AddressingMode.full.check a = .error misfit ∧
      (∃ block, Assembly.block "LEA R0, [R1*3]".toList = .ok block ∧
        amd64.lowerBlock block = .error misfit) ∧
      ∃ block, Assembly.block "MOV R0, [R1*3]".toList = .ok block ∧
        amd64.lowerBlock block = .ok ⟨[⟨.binary .mov (.reg ⟨0⟩) (.mem a), false, 0⟩]⟩ :=
  ⟨rfl, rfl, ⟨_, rfl, rfl⟩, ⟨_, rfl, rfl⟩⟩

end Target

end TwoAddress
