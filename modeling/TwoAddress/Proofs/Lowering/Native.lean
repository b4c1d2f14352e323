/-
# `Proofs.Lowering.Native` — the instructions that a target takes

A target takes an instruction that it can encode as it stands (`Target.Takes`):
the opcode has a name and stands for no other, the destination can be written,
an address computation has an address that is encoded, and two memory operands
come together only where the target has such forms.

Lowering emits nothing else (`takes_of_lower`), and an instruction that is taken
is lowered to itself (`lower_of_takes`). What the target takes is thus what it
leaves alone, and all that has to be known of emitted code is one case for each
constructor.
-/
import TwoAddress.Proofs.Lowering.Strategy
import TwoAddress.Proofs.Opcode.Tables

namespace TwoAddress

theorem AddressingMode.check_eq_ok_iff {mode : AddressingMode} {a : Address} :
    mode.check a = .ok () ↔ mode.encodes a = true := by
  rw [check, encodes]
  cases mode.misfit? a with
  | none => simp
  | some m => simp

namespace Opcode

/-- A two-operand operation that is written out as it is: it has a name, it is
no address computation, and no one-operand operation does its work. -/
structure Plain (op : Opcode .binary) : Prop where
  declared : op.isDeclared = true
  not_lea : op ≠ .lea
  not_unary : op.toUnary? = none

theorem plain_mov : Plain .mov := ⟨by decide, by decide, by decide⟩

theorem plain_add : Plain .add := ⟨by decide, by decide, by decide⟩

theorem declared_of_ternaryToBinary? {op3 : Opcode .ternary} {op : Opcode .binary}
    (h : op3.ternaryToBinary? = some op) : op3.isDeclared = true ∧ op.isDeclared = true :=
  (sound_ternaryTable.namedAfter h).declared

theorem declared_of_quaternaryToBinary? {op4 : Opcode .quaternary} {op : Opcode .binary}
    (h : op4.quaternaryToBinary? = some op) : op4.isDeclared = true :=
  (sound_quaternaryTable.namedAfter h).declared.1

theorem declared_of_toUnary? {op : Opcode .binary} {unary : Opcode .unary}
    (h : op.toUnary? = some unary) : unary.isDeclared = true :=
  (named_binaryTable _ (mem_of_lookup h)).declared.2

theorem plain_of_ternary {op3 : Opcode .ternary} {op : Opcode .binary}
    (h : op3.ternaryToBinary? = some op) : op.Plain := by
  obtain ⟨hlea, _, hunary⟩ := ternaryToBinary?_ordinary h
  exact ⟨(declared_of_ternaryToBinary? h).2, hlea, hunary⟩

end Opcode

namespace Target

/-- The target encodes the instruction as it stands. -/
inductive Takes (t : Target) : Instruction → Prop
  | nullary {op : Opcode .nullary} : op.isDeclared = true → Takes t (.nullary op)
  | unary {op : Opcode .unary} {dst : Operand} : op.isDeclared = true → dst.isImm = false →
      Takes t (.unary op dst)
  | address {mode : AddressingMode} {d : Reg} {a : Address} : t.addressing = some mode →
      mode.encodes a = true → Takes t (.binary .lea (.reg d) (.mem a))
  | binary {op : Opcode .binary} {dst src : Operand} : op.Plain → dst.isImm = false →
      (dst.isMem = true → src.isMem = true → t.memoryToMemory = true) →
      Takes t (.binary op dst src)

variable {t : Target} {ins g : Instruction} {group : List Instruction}
  {op : Opcode .binary} {dst src a b : Operand}

/-! ## What is lowered has a name -/

theorem declared_of_lower (h : t.lower ins = .ok group) : ins.opcode.isDeclared = true := by
  obtain ⟨plan, hp, _⟩ := lower_eq_ok_iff.mp h
  cases ins with
  | nullary op =>
      simp only [Target.plan] at hp
      split at hp
      case isTrue hop => exact hop
      case isFalse => cases hp
  | unary op dst =>
      simp only [Target.plan] at hp
      split at hp
      case isTrue => cases hp
      case isFalse hop =>
        show op.isDeclared = true
        simpa using hop
  | binary op dst src =>
      simp only [Target.plan] at hp
      split at hp
      case isTrue => cases hp
      case isFalse hop =>
        show op.isDeclared = true
        simpa using hop
  | ternary op3 dst a b =>
      obtain ⟨op, _, hop, _⟩ := lower_ternary h
      exact (Opcode.declared_of_ternaryToBinary? hop).1
  | quaternary op4 dst base index scale =>
      obtain ⟨_, _, _, _, _, hop, _⟩ := lower_quaternary h
      exact Opcode.declared_of_quaternaryToBinary? hop

/-! ## What is emitted is taken -/

theorem takes_mov_reg (s : Reg) (src : Operand) : t.Takes (.binary .mov (.reg s) src) :=
  .binary Opcode.plain_mov rfl fun hd => nomatch hd

theorem takes_of_operation (hop : op.Plain) (hdst : dst.isImm = false)
    (h : t.operation ins op dst src = .ok group) : ∀ g ∈ group, t.Takes g := by
  rcases operation_eq_ok_iff.mp h with ⟨hboth, rfl⟩ | ⟨_, _, _, s, _, _, rfl⟩
  · exact List.forall_mem_singleton.mpr (.binary hop hdst hboth)
  · have hlast : t.Takes (.binary op dst (.reg s)) := .binary hop hdst fun _ hs => nomatch hs
    exact List.forall_mem_cons.mpr ⟨takes_mov_reg s src, List.forall_mem_singleton.mpr hlast⟩

theorem fusion?_eq_some {d : Reg} {sum : Address} (h : t.fusion? op dst a b = some (d, sum)) :
    t.leaFusion = true ∧ dst = .reg d ∧ sumAddress? op a b = some sum ∧
      ∃ mode, t.addressing = some mode ∧ mode.encodes sum = true := by
  unfold fusion? at h
  split at h
  case h_1 mode d' sum' hfusion haddr hsum =>
    split at h
    case isTrue hfits =>
      cases h
      exact ⟨hfusion, rfl, hsum, mode, haddr, hfits⟩
    case isFalse => exact nomatch h
  case h_2 => exact nomatch h

/-- What a plan for `dst := a op b` is written out to is taken. One case for
each reason for which a plan is chosen. -/
theorem takes_of_justified {plan : Plan} (hop : op.Plain) (hdst : dst.isImm = false)
    (hj : Plan.Justified t op dst a b plan) (h : t.emit ins plan = .ok group) :
    ∀ g ∈ group, t.Takes g := by
  cases hj with
  | reuse _ => exact takes_of_operation hop hdst h
  | commute _ _ _ => exact takes_of_operation hop hdst h
  | fuse _ hf =>
      cases h
      obtain ⟨_, _, _, mode, haddr, hfits⟩ := fusion?_eq_some hf
      exact List.forall_mem_singleton.mpr (.address haddr hfits)
  | negateAdd _ _ _ =>
      obtain ⟨rest, hrest, hgroup⟩ := bind_eq_ok_iff.mp h
      cases hgroup
      have hneg : t.Takes (.unary .neg dst) := .unary (by decide) hdst
      exact List.forall_mem_cons.mpr ⟨hneg, takes_of_operation Opcode.plain_add hdst hrest⟩
  | commuteMove through _ _ =>
      cases h
      -- an operand is addressed through the destination, so that is a register
      have hreg : dst.isMem = false := by
        cases dst with
        | reg r => rfl
        | imm k => rfl
        | mem m => exact nomatch through
      have hmov : t.Takes (.binary .mov dst b) :=
        .binary Opcode.plain_mov hdst fun hd => nomatch hreg.symm.trans hd
      have hlast : t.Takes (.binary op dst a) :=
        .binary hop hdst fun hd => nomatch hreg.symm.trans hd
      exact List.forall_mem_cons.mpr ⟨hmov, List.forall_mem_singleton.mpr hlast⟩
  | viaScratch _ =>
      obtain ⟨s, _, hgroup⟩ := bind_eq_ok_iff.mp h
      cases hgroup
      have hmid : t.Takes (.binary op (.reg s) b) := .binary hop rfl fun hd => nomatch hd
      have hlast : t.Takes (.binary .mov dst (.reg s)) :=
        .binary Opcode.plain_mov hdst fun _ hs => nomatch hs
      exact List.forall_mem_cons.mpr ⟨takes_mov_reg s a,
        List.forall_mem_cons.mpr ⟨hmid, List.forall_mem_singleton.mpr hlast⟩⟩
  | moveOperate apart hboth =>
      cases h
      have hlast : t.Takes (.binary op dst b) := by
        refine .binary hop hdst ?_
        intro hd hb
        exact nomatch hb.symm.trans ((Operand.mayChangeWith_eq_false_iff.mp apart).2 hd)
      exact List.forall_mem_cons.mpr
        ⟨.binary Opcode.plain_mov hdst hboth, List.forall_mem_singleton.mpr hlast⟩

/-- Lowering emits only what the target takes. -/
theorem takes_of_lower (h : t.lower ins = .ok group) : ∀ g ∈ group, t.Takes g := by
  have hdecl := declared_of_lower h
  cases ins with
  | nullary op =>
      obtain rfl := lower_nullary h
      exact List.forall_mem_singleton.mpr (.nullary hdecl)
  | unary op dst =>
      obtain ⟨hdst, rfl⟩ := lower_unary h
      exact List.forall_mem_singleton.mpr (.unary hdecl hdst)
  | binary op dst src =>
      obtain ⟨hdst, hgroup⟩ := lower_binary h
      cases hgroup with
      | address hop haddr hd ha hcheck =>
          subst hop hd ha
          exact List.forall_mem_singleton.mpr
            (.address haddr (AddressingMode.check_eq_ok_iff.mp hcheck))
      | inPlace hu _ =>
          exact List.forall_mem_singleton.mpr (.unary (Opcode.declared_of_toUnary? hu) hdst)
      | copied hu hcopy =>
          exact List.forall_mem_append.mpr ⟨takes_of_operation Opcode.plain_mov hdst hcopy,
            List.forall_mem_singleton.mpr (.unary (Opcode.declared_of_toUnary? hu) hdst)⟩
      | operated hlea hu hg => exact takes_of_operation ⟨hdecl, hlea, hu⟩ hdst hg
  | ternary op3 dst a b =>
      obtain ⟨op, plan, hop, hdst, hj, he⟩ := lower_ternary h
      exact takes_of_justified (Opcode.plain_of_ternary hop) hdst hj he
  | quaternary op4 dst base index scale =>
      obtain ⟨mode, d, k, a, sum, _, haddr, _, _, _, _, hcheck, rfl⟩ := lower_quaternary h
      exact List.forall_mem_singleton.mpr
        (.address haddr (AddressingMode.check_eq_ok_iff.mp hcheck))

/-! ## What is taken is left alone -/

theorem operation_of_both (h : dst.isMem = true → src.isMem = true → t.memoryToMemory = true) :
    t.operation ins op dst src = .ok [.binary op dst src] :=
  operation_eq_ok_iff.mpr (.inl ⟨h, rfl⟩)

/-- An instruction that the target takes is lowered to itself. -/
theorem lower_of_takes (h : t.Takes g) : t.lower g = .ok [g] := by
  rw [lower_eq_ok_iff]
  cases h with
  | nullary hop => exact ⟨.keep, by simp [Target.plan, hop], rfl⟩
  | unary hop hdst => exact ⟨.keep, by simp [Target.plan, hop, hdst], rfl⟩
  | @address mode d a haddr hfits =>
      have hcheck := AddressingMode.check_eq_ok_iff.mpr hfits
      refine ⟨.keep, ?_, rfl⟩
      have hlea : Opcode.isDeclared .lea = true := by decide
      simp only [Target.plan, hlea, Operand.isImm, planBinary, planAddress, haddr, hcheck]
      rfl
  | @binary op dst src hop hdst hboth =>
      refine ⟨.operate op dst src, ?_, operation_of_both hboth⟩
      simp [Target.plan, planBinary, hop.declared, hop.not_lea, hop.not_unary, hdst]

/-! ## Every instruction is lowered to something -/

theorem operation_ne_nil (h : t.operation ins op dst src = .ok group) : group ≠ [] := by
  rcases operation_eq_ok_iff.mp h with ⟨_, rfl⟩ | ⟨_, _, _, s, _, _, rfl⟩
  · exact List.cons_ne_nil _ _
  · exact List.cons_ne_nil _ _

theorem emit_ne_nil {plan : Plan} (h : t.emit ins plan = .ok group) : group ≠ [] := by
  cases plan with
  | operate => exact operation_ne_nil h
  | reuse => exact operation_ne_nil h
  | commute => exact operation_ne_nil h
  | moveUnary op dst src =>
      obtain ⟨copy, _, hgroup⟩ := bind_eq_ok_iff.mp h
      cases hgroup
      exact List.append_ne_nil_of_right_ne_nil copy (List.cons_ne_nil _ _)
  | negateAdd dst a =>
      obtain ⟨rest, _, hgroup⟩ := bind_eq_ok_iff.mp h
      cases hgroup
      exact List.cons_ne_nil _ _
  | viaScratch why op dst a b =>
      obtain ⟨s, _, hgroup⟩ := bind_eq_ok_iff.mp h
      cases hgroup
      exact List.cons_ne_nil _ _
  | keep => cases h; exact List.cons_ne_nil _ _
  | unaryInPlace => cases h; exact List.cons_ne_nil _ _
  | fuse => cases h; exact List.cons_ne_nil _ _
  | commuteMove => cases h; exact List.cons_ne_nil _ _
  | moveOperate => cases h; exact List.cons_ne_nil _ _
  | loadAddress => cases h; exact List.cons_ne_nil _ _

end Target

end TwoAddress
