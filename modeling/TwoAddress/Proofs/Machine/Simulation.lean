/-
# `Proofs.Machine.Simulation` — one instruction on both machines

An instruction and the group that it becomes, started in one state, end in
states that agree outside the scratch register, and after a link both hold the
same carry (`Matched`, `matched_of_lower`). The machines do not stay in one
state, only in states that agree, and so the step of the first is carried over
from one of these to the other (`stepVirtual_congr`).

What is neither a link nor destroys a carry leaves it alone on both machines
(`carry_of_inert`, `carry_of_inert_group`).
-/
import TwoAddress.Proofs.Machine.Emitted

namespace TwoAddress

namespace Machine

open Carry (Link)

variable {m : Meaning} {keeps kv kt : CarryPolicy} {t : Target} {s s' v v' w : State}
  {op : Opcode .binary} {ins : Instruction} {dst a b : Operand} {group : List Instruction}

/-! ## Steps on three and four operands -/

theorem Meaning.stepVirtual_ternary (m : Meaning) (keeps : CarryPolicy) (a b : Operand)
    {op3 : Opcode .ternary} {c : Bool}
    (hop : op3.ternaryToBinary? = some op) (hdst : dst.isImm = false)
    (hc : carryIn op s.carry = some c) :
    m.stepVirtual keeps s (.ternary op3 dst a b) =
      some (s.set dst (m.value op (s.read a) (s.read b) c)
        (match Link.of? (.ternary op3 dst a b) with
          | some l => some (exceeds l.family (s.read a) (s.read b) c)
          | none => s.carry)) := by
  simp only [Meaning.stepVirtual, hop, Option.bind_eq_bind, Option.bind_some, hc]
  exact State.assign_of_not_imm hdst _ _

theorem Meaning.stepVirtual_quaternary {op4 : Opcode .quaternary} {base index scale : Operand}
    {y : Word} (hop : op4.quaternaryToBinary? = some op) (hdst : dst.isImm = false)
    (hy : s.baseValue base = some y) :
    m.stepVirtual keeps s (.quaternary op4 dst base index scale) =
      some (s.set dst (y + s.read index * s.read scale) s.carry) := by
  simp only [Meaning.stepVirtual, hop, Option.bind_eq_bind, Option.bind_some, hy]
  exact State.assign_of_not_imm hdst _ _

/-! ## The instruction and its group -/

/-- Started in `s`, the instruction ends in `v` and its group in `w`, and these
match. -/
structure Matched (m : Meaning) (kv kt : CarryPolicy) (scratch : Option Reg) (s : State)
    (ins : Instruction) (group : List Instruction) (v w : State) : Prop where
  virtual : m.stepVirtual kv s ins = some v
  lowered : m.run kt s group = some w
  agree : AgreeOff scratch v w
  carry : ∀ l, Link.of? ins = some l → ∃ c, v.carry = some c ∧ w.carry = some c

theorem of?_ternary_of_consume {op3 : Opcode .ternary} {f : Carry.Family}
    (hop : op3.ternaryToBinary? = some op) (hf : Link.ofOpcode? op = some ⟨.consume, f⟩) :
    Link.of? (.ternary op3 dst a b) = some ⟨.consume, f⟩ := by
  simp [Link.of?, hop, hf, Link.consumes]

theorem free_of_ternary {op3 : Opcode .ternary} (hop : op3.ternaryToBinary? = some op)
    (h : Link.of? (.ternary op3 dst a b) = none) : Free op := by
  intro f hf
  exact nomatch h.symm.trans (of?_ternary_of_consume hop hf)

theorem operation_one {dst src : Operand} {g : Instruction}
    (h : t.operation ins op dst src = .ok [g]) : g = .binary op dst src := by
  rcases Target.operation_eq_ok_iff.mp h with ⟨_, hg⟩ | ⟨_, _, _, r, _, _, hg⟩
  · exact (List.cons.inj hg).1
  · exact nomatch hg

/-- The one instruction that a link becomes which reads a carry: on three
operands the destination is one of the sources. -/
theorem lower_reader {l : Link} {g : Instruction} (hl : Link.of? ins = some l)
    (hrole : l.role = .consume) (h : t.lower ins = .ok [g]) :
    ∃ dst src, dst.isImm = false ∧ g = .binary l.opcode dst src ∧
      (ins = .binary l.opcode dst src ∨
        ∃ op3 a b, ins = .ternary op3 dst a b ∧ op3.ternaryToBinary? = some l.opcode ∧
          (dst = a ∧ src = b ∨ dst = b ∧ src = a ∧ l.opcode.isCommutative = true)) := by
  cases ins with
  | nullary op => cases hl
  | unary op dst => cases hl
  | quaternary op dst base index scale => cases hl
  | binary op dst src =>
      obtain rfl := Link.ofOpcode?_eq_some_iff.mp hl
      obtain ⟨hlea, _, hun⟩ := l.opcode_plain
      obtain ⟨hdst, hgroup⟩ := Target.lower_binary h
      generalize hgs : [g] = gs at hgroup
      cases hgroup with
      | address hop _ _ _ _ => exact absurd hop hlea
      | inPlace hu _ => cases hun.symm.trans hu
      | copied hu _ => cases hun.symm.trans hu
      | operated _ _ hg =>
          subst hgs
          exact ⟨dst, src, hdst, operation_one hg, .inl rfl⟩
  | ternary op3 dst a b =>
      obtain ⟨hop, _⟩ := Link.of?_ternary hl
      obtain ⟨op, plan, hop', hdst, hj, he⟩ := Target.lower_ternary h
      obtain rfl := Option.some.inj (hop.symm.trans hop')
      cases hj with
      | reuse hsame =>
          exact ⟨dst, b, hdst, operation_one he, .inr ⟨op3, a, b, rfl, hop, .inl ⟨hsame, rfl⟩⟩⟩
      | commute _ hsame hc =>
          exact ⟨dst, a, hdst, operation_one he,
            .inr ⟨op3, a, b, rfl, hop, .inr ⟨hsame, rfl, hc⟩⟩⟩
      | fuse _ hf => simp [Target.fusion?, Carry.sumAddress?_of_consume hrole] at hf
      | negateAdd _ hsub _ => exact absurd hsub (Link.opcode_of_consume hrole).2
      -- the plans that are left begin with a copy, and the group is one instruction
      | commuteMove _ _ _ => cases he
      | moveOperate _ _ => cases he
      | viaScratch _ =>
          obtain ⟨r, _, hs⟩ := bind_eq_ok_iff.mp he
          cases hs

theorem matched_of_reader {l : Link} {g : Instruction} {c : Bool} (hl : Link.of? ins = some l)
    (hrole : l.role = .consume) (h : t.lower ins = .ok [g]) (hc : s.carry = some c) :
    ∃ v w, Matched m kv kt t.scratch s ins [g] v w := by
  obtain ⟨dst, src, hdst, rfl, hins⟩ := lower_reader hl hrole h
  have hof : Link.ofOpcode? l.opcode = some l := Link.ofOpcode?_eq_some_iff.mpr rfl
  have hcin : carryIn l.opcode s.carry = some c := by
    obtain ⟨role, family⟩ := l
    obtain rfl : role = .consume := hrole
    exact (carryIn_of_consume hof s.carry).trans hc
  obtain ⟨w, hw, hcarry⟩ := computes_one m kt s t.scratch src l.opcode_plain.1 hdst hcin
  have hvirtual : m.stepVirtual kv s ins =
      some (s.set dst (m.value l.opcode (s.read dst) (s.read src) c)
        (some (exceeds l.family (s.read dst) (s.read src) c))) := by
    rcases hins with rfl | ⟨op3, a, b, rfl, hop, hsrc⟩
    · have hstep : m.stepVirtual kv s (.binary l.opcode dst src) = _ :=
        Meaning.step_operate l.opcode_plain.1 hdst hcin
      rw [hof] at hstep
      exact hstep
    · have hstep := m.stepVirtual_ternary kv a b hop hdst hcin
      rw [hl] at hstep
      rcases hsrc with ⟨rfl, rfl⟩ | ⟨rfl, rfl, hcomm⟩
      · exact hstep
      · rw [m.value_comm hcomm, exceeds_comm hcomm]
        exact hstep
  exact ⟨_, w, hvirtual, hw.runs, (hw.writes _).symm,
    fun _ _ => ⟨_, State.carry_set, hcarry l hof⟩⟩

theorem matched_of_binary {src : Operand} (h : t.lower (.binary op dst src) = .ok group)
    (hlea : op ≠ .lea) (hfree : Free op) :
    ∃ v w, Matched m kv kt t.scratch s (.binary op dst src) group v w := by
  have hvirtual : m.stepVirtual kv s (.binary op dst src) = _ :=
    Meaning.step_operate hlea (Target.lower_binary h).1 (carryIn_of_free hfree s.carry)
  obtain ⟨w, hw, hcarry⟩ := computes_binary m kt s h hlea hfree
  refine ⟨_, w, hvirtual, hw.runs, (hw.writes _).symm.of_lent, ?_⟩
  intro l hl
  have hof : Link.ofOpcode? op = some l := hl
  refine ⟨_, ?_, hcarry l hof⟩
  rw [State.carry_set, hof]

/-- Every instruction that can be lowered matches its group. Where it reads a
carry there has to be one, and the group has to be a single instruction. -/
theorem matched_of_lower (h : t.lower ins = .ok group)
    (hread : ∀ l, Link.of? ins = some l → l.role = .consume →
      (∃ c, s.carry = some c) ∧ ∃ g, group = [g]) :
    ∃ v w, Matched m kv kt t.scratch s ins group v w := by
  cases ins with
  | nullary op =>
      obtain rfl := Target.lower_nullary h
      refine ⟨s, s, rfl, Meaning.run_one rfl, .refl s, ?_⟩
      intro l hl
      cases hl
  | unary op dst =>
      obtain ⟨hdst, rfl⟩ := Target.lower_unary h
      refine ⟨_, _, Meaning.step_unary hdst, Meaning.run_one (Meaning.step_unary hdst),
        .of_carry, ?_⟩
      intro l hl
      cases hl
  | binary op dst src =>
      by_cases hlea : op = .lea
      · subst hlea
        obtain ⟨hdst, hgroup⟩ := Target.lower_binary h
        cases hgroup with
        | @address _ _ a _ _ _ ha _ =>
            subst ha
            have hstep : m.step kv s (.binary .lea dst (.mem a)) = _ := Meaning.step_lea hdst
            refine ⟨_, _, hstep, Meaning.run_one (Meaning.step_lea hdst), .refl _, ?_⟩
            intro l hl
            cases hl
        | inPlace hu _ => exact nomatch hu
        | copied hu _ => exact nomatch hu
        | operated hne _ _ => exact absurd rfl hne
      · cases hl : Link.ofOpcode? op with
        | none => exact matched_of_binary h hlea (free_of_none hl)
        | some l =>
            by_cases hrole : l.role = .consume
            · obtain ⟨⟨c, hc⟩, g, rfl⟩ := hread l hl hrole
              exact matched_of_reader hl hrole h hc
            -- a link that only leaves a carry computes as every other operation does
            · exact matched_of_binary h hlea (free_of_link hl hrole)
  | ternary op3 dst a b =>
      cases hl : Link.of? (.ternary op3 dst a b) with
      | some l =>
          -- a link of three operands always reads a carry
          obtain ⟨_, hrole⟩ := Link.of?_ternary hl
          obtain ⟨⟨c, hc⟩, g, rfl⟩ := hread l hl hrole
          exact matched_of_reader hl hrole h hc
      | none =>
          obtain ⟨op, plan, hop, hdst, _, _⟩ := Target.lower_ternary h
          have hfree := free_of_ternary hop hl
          have hvirtual := m.stepVirtual_ternary kv a b hop hdst (carryIn_of_free hfree s.carry)
          obtain ⟨w, hw, _⟩ := computes_ternary m kt s h hop (settled_of_free hfree s.carry)
          refine ⟨_, w, hvirtual, hw.runs, (hw.writes _).symm.of_lent, ?_⟩
          intro l hl'
          cases hl.symm.trans hl'
  | quaternary op4 dst base index scale =>
      obtain ⟨_, d, _, _, _, hop, _, rfl, _⟩ := Target.lower_quaternary h
      obtain ⟨y, w, hy, _, hw⟩ := computes_quaternary m kt s h
      refine ⟨_, w, Meaning.stepVirtual_quaternary hop rfl hy, hw.runs, (hw.writes _).symm, ?_⟩
      intro l hl
      cases hl

/-! ## States that agree -/

theorem State.assign_eq_some {x : Word} {carry : Option Bool}
    (h : s.assign dst x carry = some s') : dst.isImm = false ∧ s' = s.set dst x carry := by
  rw [State.assign] at h
  split at h
  case isTrue => cases h
  case isFalse hi => exact ⟨by simpa using hi, (Option.some.inj h).symm⟩

theorem State.assign_congr {scratch : Option Reg} {x : Word} {carry carry' : Option Bool}
    (hagree : AgreeOff scratch s s') (hd : Avoids scratch dst)
    (h : s'.assign dst x carry' = some v') :
    ∃ v, s.assign dst x carry = some v ∧ AgreeOff scratch v v' ∧ v.carry = carry ∧
      v'.carry = carry' := by
  obtain ⟨hi, rfl⟩ := State.assign_eq_some h
  exact ⟨_, State.assign_of_not_imm hi x carry, hagree.set hd, State.carry_set, State.carry_set⟩

theorem State.baseValue_congr {scratch : Option Reg} {base : Operand}
    (hagree : AgreeOff scratch s s') (hbase : Avoids scratch base) :
    s.baseValue base = s'.baseValue base := by
  cases base with
  | reg r => exact congrArg some (hagree.read hbase)
  | imm k => rfl
  | mem a => simp only [State.baseValue, hagree.address hbase]

theorem carryIn_congr {carry carry' : Option Bool}
    (h : ∀ f, Link.ofOpcode? op = some ⟨.consume, f⟩ → carry = carry') :
    carryIn op carry = carryIn op carry' := by
  rw [carryIn, carryIn]
  split
  case h_1 f hl => exact h f hl
  case h_2 => rfl

/-- From states that agree an instruction leads to states that agree. It reads
nothing of the scratch register, and a carry only if it is a link. -/
theorem stepVirtual_congr {scratch : Option Reg} (hagree : AgreeOff scratch s s')
    (havoid : ∀ o ∈ ins.operands, Avoids scratch o)
    (hcarry : ∀ l, Link.of? ins = some l → l.role = .consume → s.carry = s'.carry)
    (h : m.stepVirtual keeps s' ins = some v') :
    ∃ v, m.stepVirtual keeps s ins = some v ∧ AgreeOff scratch v v' ∧
      ∀ l, Link.of? ins = some l → v.carry = v'.carry := by
  cases ins with
  | nullary op =>
      cases h
      refine ⟨s, rfl, hagree, ?_⟩
      intro l hl
      cases hl
  | unary op dst =>
      have hd : Avoids scratch dst := havoid dst List.mem_cons_self
      obtain ⟨v, hv, hag, _⟩ := State.assign_congr hagree hd h
      rw [← hagree.read hd] at hv
      refine ⟨v, hv, hag, ?_⟩
      intro l hl
      cases hl
  | binary op dst src =>
      have hd : Avoids scratch dst := havoid dst List.mem_cons_self
      have hsrc : Avoids scratch src := havoid src (List.mem_cons_of_mem dst List.mem_cons_self)
      by_cases hlea : op = .lea
      · subst hlea
        cases src with
        | reg r => cases h
        | imm k => cases h
        | mem a =>
            obtain ⟨v, hv, hag, _⟩ := State.assign_congr hagree hd h
            rw [← hagree.address hsrc] at hv
            refine ⟨v, hv, hag, ?_⟩
            intro l hl
            cases hl
      · simp only [Meaning.stepVirtual, Meaning.step, if_neg hlea, Meaning.operate] at h ⊢
        obtain ⟨c, hc, h⟩ := Option.bind_eq_some_iff.mp h
        -- the carries may differ, but not where one is read
        rw [← carryIn_congr fun f hf => hcarry _ hf rfl] at hc
        obtain ⟨v, hv, hag, hcv, hcv'⟩ := State.assign_congr hagree hd h
        rw [hagree.read hd, hagree.read hsrc]
        refine ⟨v, Option.bind_eq_some_iff.mpr ⟨c, hc, hv⟩, hag, ?_⟩
        intro l hl
        have hof : Link.ofOpcode? op = some l := hl
        rw [hcv, hcv', hof]
  | ternary op3 dst a b =>
      have hd : Avoids scratch dst := havoid dst List.mem_cons_self
      have ha : Avoids scratch a := havoid a (List.mem_cons_of_mem dst List.mem_cons_self)
      have hb : Avoids scratch b :=
        havoid b (List.mem_cons_of_mem dst (List.mem_cons_of_mem a List.mem_cons_self))
      simp only [Meaning.stepVirtual] at h ⊢
      obtain ⟨op, hop, h⟩ := Option.bind_eq_some_iff.mp h
      obtain ⟨c, hc, h⟩ := Option.bind_eq_some_iff.mp h
      rw [← carryIn_congr fun f hf => hcarry _ (of?_ternary_of_consume hop hf) rfl] at hc
      obtain ⟨v, hv, hag, hcv, hcv'⟩ := State.assign_congr hagree hd h
      rw [hagree.read ha, hagree.read hb]
      refine ⟨v, ?_, hag, ?_⟩
      · exact Option.bind_eq_some_iff.mpr ⟨op, hop, Option.bind_eq_some_iff.mpr ⟨c, hc, hv⟩⟩
      · intro l hl
        rw [hcv, hcv', hl]
  | quaternary op4 dst base index scale =>
      have hmem : ∀ o ∈ [dst, base, index, scale], Avoids scratch o := havoid
      have hd : Avoids scratch dst := hmem dst (by simp)
      have hbase : Avoids scratch base := hmem base (by simp)
      have hindex : Avoids scratch index := hmem index (by simp)
      have hscale : Avoids scratch scale := hmem scale (by simp)
      simp only [Meaning.stepVirtual] at h ⊢
      obtain ⟨op, hop, h⟩ := Option.bind_eq_some_iff.mp h
      obtain ⟨y, hy, h⟩ := Option.bind_eq_some_iff.mp h
      rw [← State.baseValue_congr hagree hbase] at hy
      obtain ⟨v, hv, hag, _⟩ := State.assign_congr hagree hd h
      rw [hagree.read hindex, hagree.read hscale]
      refine ⟨v, ?_, hag, ?_⟩
      · exact Option.bind_eq_some_iff.mpr ⟨op, hop, Option.bind_eq_some_iff.mpr ⟨y, hy, hv⟩⟩
      · intro l hl
        cases hl

/-! ## Carries that are left alone -/

theorem Meaning.carry_of_step_inert {g : Instruction} (hg : g.Inert)
    (h : m.step keeps s g = some s') : s'.carry = s.carry := by
  cases hg with
  | nop =>
      cases h
      rfl
  | ret =>
      cases h
      rfl
  | lea dst src =>
      cases src with
      | reg r => exact nomatch h
      | imm k => exact nomatch h
      | mem a =>
          obtain ⟨_, rfl⟩ := State.assign_eq_some h
          exact State.carry_set

theorem carry_of_inert_group (hg : ∀ g ∈ group, g.Inert) (h : m.run keeps s group = some s') :
    s'.carry = s.carry := by
  induction group generalizing s with
  | nil =>
      cases h
      rfl
  | cons g rest ih =>
      rw [Meaning.run, List.foldlM_cons] at h
      obtain ⟨s₁, hstep, hrest⟩ := Option.bind_eq_some_iff.mp h
      rw [ih (fun x hx => hg x (List.mem_cons_of_mem g hx)) hrest]
      exact Meaning.carry_of_step_inert (hg g List.mem_cons_self) hstep

/-- What becomes inert code, and is no link, leaves the carry alone itself. -/
theorem carry_of_inert (hlow : t.lower ins = .ok group) (hl : Link.of? ins = none)
    (hg : ∀ g ∈ group, g.Inert) (h : m.stepVirtual keeps s ins = some s') :
    s'.carry = s.carry := by
  cases ins with
  | nullary op =>
      cases h
      rfl
  | unary op dst =>
      obtain ⟨_, rfl⟩ := Target.lower_unary hlow
      exact nomatch hg _ List.mem_cons_self
  | binary op dst src =>
      have hstep : m.step keeps s (.binary op dst src) = some s' := h
      refine Meaning.carry_of_step_inert ?_ hstep
      obtain ⟨_, hgroup⟩ := Target.lower_binary hlow
      cases hgroup with
      | address hop _ _ _ _ =>
          subst hop
          exact .lea dst src
      | inPlace _ _ => exact nomatch hg _ List.mem_cons_self
      | copied _ _ => exact nomatch hg _ List.mem_concat_self
      | operated _ _ hoperation =>
          rcases Target.operation_eq_ok_iff.mp hoperation with ⟨_, rfl⟩ | ⟨_, _, _, r, _, _, rfl⟩
          · exact hg _ List.mem_cons_self
          · exact absurd (hg _ List.mem_cons_self) (Carry.not_inert_mov _ _)
  | ternary op3 dst a b =>
      simp only [Meaning.stepVirtual, hl] at h
      obtain ⟨op, _, h⟩ := Option.bind_eq_some_iff.mp h
      obtain ⟨c, _, h⟩ := Option.bind_eq_some_iff.mp h
      obtain ⟨_, rfl⟩ := State.assign_eq_some h
      exact State.carry_set
  | quaternary op4 dst base index scale =>
      obtain ⟨op, _, h⟩ := Option.bind_eq_some_iff.mp h
      obtain ⟨y, _, h⟩ := Option.bind_eq_some_iff.mp h
      obtain ⟨_, rfl⟩ := State.assign_eq_some h
      exact State.carry_set

end Machine

end TwoAddress
