/-
# `Proofs.Lowering.Legal` — what the code of an instruction looks like

Each way of lowering writes its instructions out by hand, so that they are legal
for the target has to be seen branch by branch. That was done for `Takes`; here
it is said in the target's own terms (`Legal`), which follow from `Takes` alone.

What is new is whose registers the code works on. It writes what the instruction
writes, or else the scratch register; and it reads operands of the instruction,
the scratch register, or an address made of the instruction's registers
(`Confined`). The scratch register comes in only through `scratchFor`, which
refuses it to an instruction that uses it. So an instruction that uses that
register keeps it, unless it is what the instruction itself writes.
-/
import TwoAddress.Proofs.Lowering.Addresses

namespace TwoAddress

namespace Target

/-- What the target demands of an instruction. -/
structure Legal (t : Target) (g : Instruction) : Prop where
  arity : g.tier.arity ≤ 2
  declared : g.opcode.isDeclared = true
  /-- `NEG2` and `NOT2` stand for operations of one operand. -/
  not_unary : ∀ op dst src, g = .binary op dst src → op ≠ .neg2 ∧ op ≠ .not2
  destination : ∀ dst, g.dst? = some dst → dst.isImm = false
  memory : t.memoryToMemory = false → g.operands.countP Operand.isMem ≤ 1
  address : ∀ dst src, g = .binary .lea dst src →
    ∃ mode d a, t.addressing = some mode ∧ dst = .reg d ∧ src = .mem a ∧
      mode.check a = .ok () ∧ (∀ x ∈ a.index, x.scale ∈ [1, 2, 4, 8]) ∧ a.fields ≤ 3

variable {t : Target} {ins g : Instruction} {group : List Instruction}
  {op : Opcode .binary} {dst src a b : Operand}

/-! ## What the target takes is legal -/

theorem addressingFault?_of_sound {mode : AddressingMode} (haddr : t.addressing = some mode) :
    Descriptor.addressingFault? mode = none := by
  have hsound := t.sound
  simp only [Descriptor.fault?, haddr, Option.or_eq_none_iff] at hsound
  exact hsound.1

theorem maxFields_of_sound {mode : AddressingMode} (haddr : t.addressing = some mode) :
    1 ≤ mode.maxFields.toNat := by
  have hfault := addressingFault?_of_sound haddr
  unfold Descriptor.addressingFault? at hfault
  split at hfault
  case isTrue => exact nomatch hfault
  case isFalse hlimit =>
    have hne : mode.maxFields.toNat ≠ 0 := fun h => hlimit (.inl (UInt8.toNat_inj.mp h))
    exact Nat.one_le_iff_ne_zero.mpr hne

theorem scales_of_sound {mode : AddressingMode} (haddr : t.addressing = some mode) :
    mode.scales ⊆ AddressingMode.full.scales := by
  have hfault := addressingFault?_of_sound haddr
  unfold Descriptor.addressingFault? at hfault
  split at hfault
  case isTrue => exact nomatch hfault
  case isFalse =>
    split at hfault
    case isTrue => exact nomatch hfault
    case isFalse =>
      intro s hs
      have hnone := List.find?_eq_none.mp (Option.map_eq_none_iff.mp hfault) s hs
      simpa [AddressingMode.supportsScale] using hnone

theorem countP_isMem_binary :
    (Instruction.binary op dst src).operands.countP Operand.isMem ≤ 1 ↔
      (dst.isMem = true → src.isMem = false) := by
  cases hd : dst.isMem <;> cases hs : src.isMem <;>
    simp [Instruction.operands, Instruction.dst?, Instruction.sources, hd, hs]

theorem Takes.legal (h : t.Takes g) : t.Legal g := by
  cases h with
  | nullary hop =>
      exact
        { arity := Nat.zero_le 2
          declared := hop
          not_unary := fun _ _ _ hg => nomatch hg
          destination := fun _ hd => nomatch hd
          memory := fun _ => Nat.zero_le 1
          address := fun _ _ hg => nomatch hg }
  | @unary op dst hop hdst =>
      exact
        { arity := Nat.le_succ 1
          declared := hop
          not_unary := fun _ _ _ hg => nomatch hg
          destination := fun _ hd => Option.some.inj hd ▸ hdst
          memory := fun _ => List.countP_le_length
          address := fun _ _ hg => nomatch hg }
  | @address mode d a haddr hfits =>
      refine
        { arity := Nat.le_refl 2
          declared := (by decide : Opcode.isDeclared .lea = true)
          not_unary := ?_
          destination := fun _ hd => Option.some.inj hd ▸ rfl
          memory := fun _ => countP_isMem_binary.mpr fun hd => nomatch hd
          address := ?_ }
      · intro op dst src hg
        cases hg
        decide
      · intro dst src hg
        cases hg
        refine ⟨mode, d, a, haddr, rfl, rfl, AddressingMode.check_eq_ok_iff.mpr hfits, ?_,
          a.fields_le_three⟩
        intro x hx
        exact scales_of_sound haddr ((AddressingMode.encodes_iff.mp hfits).1 x hx)
  | @binary op dst src hop hdst hboth =>
      refine
        { arity := Nat.le_refl 2
          declared := hop.declared
          not_unary := ?_
          destination := fun _ hd => Option.some.inj hd ▸ hdst
          memory := ?_
          address := ?_ }
      · intro op' dst' src' hg
        cases hg
        constructor
        · rintro rfl
          exact nomatch hop.not_unary
        · rintro rfl
          exact nomatch hop.not_unary
      · intro hm
        refine countP_isMem_binary.mpr ?_
        intro hd
        rw [← Bool.not_eq_true]
        intro hs
        exact nomatch hm.symm.trans (hboth hd hs)
      · intro dst' src' hg
        cases hg
        exact absurd rfl hop.not_lea

/-! ## Length -/

theorem length_operation (h : t.operation ins op dst src = .ok group) : group.length ≤ 2 := by
  rcases operation_eq_ok_iff.mp h with ⟨_, rfl⟩ | ⟨_, _, _, s, _, _, rfl⟩
  · exact Nat.le_succ 1
  · exact Nat.le_refl 2

theorem length_emit {plan : Plan} (h : t.emit ins plan = .ok group) : group.length ≤ 3 := by
  cases plan with
  | operate => exact Nat.le_succ_of_le (length_operation h)
  | reuse => exact Nat.le_succ_of_le (length_operation h)
  | commute => exact Nat.le_succ_of_le (length_operation h)
  | moveUnary op dst src =>
      obtain ⟨copy, hcopy, hgroup⟩ := bind_eq_ok_iff.mp h
      cases hgroup
      have hlen := length_operation hcopy
      rw [List.length_append]
      exact Nat.succ_le_succ hlen
  | negateAdd dst a =>
      obtain ⟨rest, hrest, hgroup⟩ := bind_eq_ok_iff.mp h
      cases hgroup
      exact Nat.succ_le_succ (length_operation hrest)
  | viaScratch why op dst a b =>
      obtain ⟨s, _, hgroup⟩ := bind_eq_ok_iff.mp h
      cases hgroup
      exact Nat.le_refl 3
  | keep => cases h; exact Nat.le_add_left 1 2
  | unaryInPlace => cases h; exact Nat.le_add_left 1 2
  | fuse => cases h; exact Nat.le_add_left 1 2
  | commuteMove => cases h; exact Nat.le_succ 2
  | moveOperate => cases h; exact Nat.le_succ 2
  | loadAddress => cases h; exact Nat.le_add_left 1 2

/-! ## Registers -/

/-- An operand that the code of `ins` may read: one of `ins` itself, the scratch
register where it is free, or an address made of registers of `ins`. -/
inductive Reads (t : Target) (ins : Instruction) : Operand → Prop
  | own {o : Operand} : o ∈ ins.operands → Reads t ins o
  | scratch {s : Reg} : t.scratchFor ins = .ok s → Reads t ins (.reg s)
  | address {a : Address} : (∀ r, a.uses r = true → ins.uses r = true) → Reads t ins (.mem a)

/-- An instruction that writes what `ins` writes, or the scratch register where
it is free, and reads no more than it may. -/
structure Confined (t : Target) (ins g : Instruction) : Prop where
  writes : g.dst? = ins.dst? ∨ ∃ s, t.scratchFor ins = .ok s ∧ g.dst? = some (.reg s)
  reads : ∀ o ∈ g.sources, t.Reads ins o

theorem uses_of_mem {o : Operand} {r : Reg} (ho : o ∈ ins.operands) (hr : o.uses r = true) :
    ins.uses r = true :=
  List.any_eq_true.mpr ⟨o, ho, hr⟩

theorem Reads.uses {o : Operand} {r : Reg} (h : t.Reads ins o) (hr : o.uses r = true) :
    ins.uses r = true ∨ t.scratch = some r := by
  cases h with
  | own ho => exact .inl (uses_of_mem ho hr)
  | scratch hs =>
      obtain rfl := beq_iff_eq.mp hr
      exact .inr (scratchFor_eq_ok_iff.mp hs).1
  | address ha => exact .inl (ha r hr)

theorem Confined.uses {r : Reg} (h : t.Confined ins g) (hr : g.uses r = true) :
    ins.uses r = true ∨ t.scratch = some r := by
  obtain ⟨o, ho, hor⟩ := List.any_eq_true.mp hr
  rcases List.mem_append.mp ho with hd | hs
  · have hdst : g.dst? = some o := Option.mem_toList.mp hd
    rcases h.writes with hown | ⟨s, hs, hscratch⟩
    · exact .inl (uses_of_mem (List.mem_append_left _ (hown ▸ hd)) hor)
    · obtain rfl := Option.some.inj (hdst.symm.trans hscratch)
      exact (Reads.scratch hs).uses hor
  · exact (h.reads o hs).uses hor

/-- An instruction that uses the scratch register has it written by no code but
for its own destination. -/
theorem Confined.dst_of_uses {s : Reg} (h : t.Confined ins g) (hs : t.scratch = some s)
    (hu : ins.uses s = true) : g.dst? = ins.dst? := by
  rcases h.writes with hown | ⟨s', hs', _⟩
  · exact hown
  · obtain ⟨hscratch, hfree⟩ := scratchFor_eq_ok_iff.mp hs'
    obtain rfl := Option.some.inj (hs.symm.trans hscratch)
    exact nomatch hu.symm.trans hfree

theorem confined_self (ins : Instruction) : t.Confined ins ins :=
  ⟨.inl rfl, fun _ ho => .own (List.mem_append_right _ ho)⟩

theorem confined_binary (hdst : ins.dst? = some dst) (hsrc : t.Reads ins src) :
    t.Confined ins (.binary op dst src) :=
  ⟨.inl hdst.symm, List.forall_mem_singleton.mpr hsrc⟩

theorem confined_unary {op : Opcode .unary} (hdst : ins.dst? = some dst) :
    t.Confined ins (.unary op dst) :=
  ⟨.inl hdst.symm, fun _ ho => nomatch ho⟩

theorem confined_scratch {s : Reg} (hs : t.scratchFor ins = .ok s) (hsrc : t.Reads ins src) :
    t.Confined ins (.binary op (.reg s) src) :=
  ⟨.inr ⟨s, hs, rfl⟩, List.forall_mem_singleton.mpr hsrc⟩

theorem confined_operation (hdst : ins.dst? = some dst) (hsrc : t.Reads ins src)
    (h : t.operation ins op dst src = .ok group) : ∀ g ∈ group, t.Confined ins g := by
  rcases operation_eq_ok_iff.mp h with ⟨_, rfl⟩ | ⟨_, _, _, s, hscratch, hfree, rfl⟩
  · exact List.forall_mem_singleton.mpr (confined_binary hdst hsrc)
  · have hs : t.scratchFor ins = .ok s := scratchFor_eq_ok_iff.mpr ⟨hscratch, hfree⟩
    exact List.forall_mem_cons.mpr ⟨confined_scratch hs hsrc,
      List.forall_mem_singleton.mpr (confined_binary hdst (.scratch hs))⟩

theorem SumOf.uses {sum : Address} {r : Reg} (h : SumOf a b sum) (hr : sum.uses r = true) :
    a.uses r = true ∨ b.uses r = true := by
  have hdisp {x : Reg} {d : Int32} (hx : ((Address.ofReg x).withDisp d).uses r = true) :
      (Operand.reg x).uses r = true := by
    simpa [Address.uses, Address.withDisp, Address.ofReg, Address.zero, Operand.uses] using hx
  cases h with
  | registers x y => simpa [Address.uses, Address.withIndex, Address.ofReg, Operand.uses] using hr
  | numberSecond x k d => exact .inl (hdisp hr)
  | numberFirst k x d => exact .inr (hdisp hr)

/-- What a plan for `dst := a op b` is written out to stays within the operands.
One case for each reason for which a plan is chosen. -/
theorem confined_of_justified {plan : Plan} (hdst : ins.dst? = some dst) (ha : a ∈ ins.operands)
    (hb : b ∈ ins.operands) (hj : Plan.Justified t op dst a b plan)
    (h : t.emit ins plan = .ok group) : ∀ g ∈ group, t.Confined ins g := by
  cases hj with
  | reuse _ => exact confined_operation hdst (.own hb) h
  | commute _ _ _ => exact confined_operation hdst (.own ha) h
  | fuse _ hf =>
      cases h
      obtain ⟨_, rfl, hsum, _⟩ := fusion?_eq_some hf
      have hregs : t.Reads ins (.mem _) := .address fun r hr =>
        ((sumOf_of_sumAddress? hsum).uses hr).elim (uses_of_mem ha) (uses_of_mem hb)
      exact List.forall_mem_singleton.mpr (confined_binary hdst hregs)
  | negateAdd _ _ _ =>
      obtain ⟨rest, hrest, hgroup⟩ := bind_eq_ok_iff.mp h
      cases hgroup
      exact List.forall_mem_cons.mpr
        ⟨confined_unary hdst, confined_operation hdst (.own ha) hrest⟩
  | commuteMove _ _ _ =>
      cases h
      exact List.forall_mem_cons.mpr ⟨confined_binary hdst (.own hb),
        List.forall_mem_singleton.mpr (confined_binary hdst (.own ha))⟩
  | moveOperate _ _ =>
      cases h
      exact List.forall_mem_cons.mpr ⟨confined_binary hdst (.own ha),
        List.forall_mem_singleton.mpr (confined_binary hdst (.own hb))⟩
  | viaScratch _ =>
      obtain ⟨s, hs, hgroup⟩ := bind_eq_ok_iff.mp h
      cases hgroup
      exact List.forall_mem_cons.mpr ⟨confined_scratch hs (.own ha),
        List.forall_mem_cons.mpr ⟨confined_scratch hs (.own hb),
          List.forall_mem_singleton.mpr (confined_binary hdst (.scratch hs))⟩⟩

theorem uses_baseOf {base : Operand} {m : Address} {r : Reg} (h : baseOf ins base = .ok m)
    (hr : m.uses r = true) : base.uses r = true := by
  cases base with
  | reg x =>
      cases h
      simpa [Address.uses, Address.ofReg, Address.zero, Operand.uses] using hr
  | mem m' =>
      simp only [baseOf] at h
      split at h
      case isTrue => cases h; exact hr
      case isFalse => exact nomatch h
  | imm k =>
      obtain ⟨d, _, hd⟩ := bind_eq_ok_iff.mp h
      cases hd
      exact nomatch hr

theorem uses_addIndex {index : Operand} {m sum : Address} {k : UInt8} {r : Reg}
    (h : addIndex ins m k index = .ok sum) (hr : sum.uses r = true) :
    m.uses r = true ∨ index.uses r = true := by
  cases index with
  | reg x =>
      cases h
      have hr' : m.base = some r ∨ x = r := by
        simpa [Address.uses, Address.withIndex] using hr
      rcases hr' with hbase | rfl
      · exact .inl (by simp [Address.uses, hbase])
      · exact .inr (by simp [Operand.uses])
  | imm i =>
      obtain ⟨d, _, hd⟩ := bind_eq_ok_iff.mp h
      cases hd
      exact .inl hr
  | mem a => exact nomatch h

/-- Lowering emits only what stays within the instruction and the scratch
register. -/
theorem confined_of_lower (h : t.lower ins = .ok group) : ∀ g ∈ group, t.Confined ins g := by
  cases ins with
  | nullary op =>
      obtain rfl := lower_nullary h
      exact List.forall_mem_singleton.mpr (confined_self _)
  | unary op dst =>
      obtain ⟨_, rfl⟩ := lower_unary h
      exact List.forall_mem_singleton.mpr (confined_self _)
  | binary op dst src =>
      have hsrc : t.Reads (.binary op dst src) src := .own (by simp)
      obtain ⟨_, hgroup⟩ := lower_binary h
      cases hgroup with
      | address _ _ _ _ _ => exact List.forall_mem_singleton.mpr (confined_self _)
      | inPlace _ _ => exact List.forall_mem_singleton.mpr (confined_unary rfl)
      | copied _ hcopy =>
          exact List.forall_mem_append.mpr ⟨confined_operation rfl hsrc hcopy,
            List.forall_mem_singleton.mpr (confined_unary rfl)⟩
      | operated _ _ hg => exact confined_operation rfl hsrc hg
  | ternary op3 dst a b =>
      obtain ⟨op, plan, _, _, hj, he⟩ := lower_ternary h
      exact confined_of_justified rfl (by simp) (by simp) hj he
  | quaternary op4 dst base index scale =>
      obtain ⟨mode, d, k, a, sum, _, _, rfl, _, ha, hsum, _, rfl⟩ := lower_quaternary h
      refine List.forall_mem_singleton.mpr (confined_binary rfl (.address ?_))
      intro r hr
      rcases uses_addIndex hsum hr with hm | hi
      · exact uses_of_mem (by simp) (uses_baseOf ha hm)
      · exact uses_of_mem (by simp) hi

/-- An instruction becomes one to three instructions, each of them legal for the
target. A register that they use and the instruction does not is the scratch
register; and where the instruction uses that register, they write it only if the
instruction does. -/
theorem lower_legal (t : Target) (ins : Instruction) (group : List Instruction)
    (h : t.lower ins = .ok group) :
    1 ≤ group.length ∧ group.length ≤ 3 ∧
      ∀ g ∈ group, t.Legal g ∧
        (∀ r, g.uses r = true → ins.uses r = false → t.scratch = some r) ∧
        ∀ s, t.scratch = some s → ins.uses s = true →
          g.dst? = some (.reg s) → ins.dst? = some (.reg s) := by
  obtain ⟨plan, _, he⟩ := lower_eq_ok_iff.mp h
  refine ⟨List.length_pos_iff.mpr (emit_ne_nil he), length_emit he, ?_⟩
  intro g hg
  have hconfined := confined_of_lower h g hg
  refine ⟨(takes_of_lower h g hg).legal, ?_, ?_⟩
  · intro r hr hfree
    rcases hconfined.uses hr with hown | hscratch
    · exact nomatch hown.symm.trans hfree
    · exact hscratch
  · intro s hs hu hd
    exact (hconfined.dst_of_uses hs hu).symm.trans hd

/-- A difference that is computed in the scratch register, and a negation whose
destination that register is. -/
theorem lower_legal_scratch_borrowed_and_own :
    let t := amd64WithScratch ⟨15⟩
    let cell (r : Reg) : Operand := .mem (.ofReg r)
    let borrowed : Instruction := .ternary .sbb3 (cell ⟨1⟩) (cell ⟨2⟩) (cell ⟨1⟩)
    let own : Instruction := .binary .neg2 (.reg ⟨15⟩) (cell ⟨15⟩)
    let legal (ins : Instruction) (group : List Instruction) : Prop :=
      t.lower ins = .ok group ∧ 1 ≤ group.length ∧ group.length ≤ 3 ∧
        ∀ g ∈ group, t.Legal g ∧
          (∀ r, g.uses r = true → ins.uses r = false → t.scratch = some r) ∧
          ∀ s, t.scratch = some s → ins.uses s = true →
            g.dst? = some (.reg s) → ins.dst? = some (.reg s)
    legal borrowed
        [.binary .mov (.reg ⟨15⟩) (cell ⟨2⟩), .binary .sbb (.reg ⟨15⟩) (cell ⟨1⟩),
          .binary .mov (cell ⟨1⟩) (.reg ⟨15⟩)] ∧
      legal own [.binary .mov (.reg ⟨15⟩) (cell ⟨15⟩), .unary .neg (.reg ⟨15⟩)] := by
  intro t cell borrowed own legal
  exact ⟨⟨rfl, lower_legal t borrowed _ rfl⟩, ⟨rfl, lower_legal t own _ rfl⟩⟩

end Target

end TwoAddress
