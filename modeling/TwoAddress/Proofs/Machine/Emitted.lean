/-
# `Proofs.Machine.Emitted` — what emitted code computes

A group of emitted code is to write one value to one destination and, but for
the scratch register and the carry, nothing else (`Computes`). An instruction that
uses the scratch register is lowered without it, so it is only to the others that it
is lent (`Target.lent`), and none of their operands has to do with it. All this is
shown for each way of lowering on its own, from the facts that justify it
(`computes_binary`, `computes_ternary`, `computes_quaternary`): where the
destination is overwritten before the last source has been read, the two are
apart.

Copies may come before an operation. It computes with the same carry after them
(`Settled`) if it reads none, or if copies keep the carry. In that second case a
group also leaves the carry that its link leaves.
-/
import TwoAddress.Proofs.Carry.Group
import TwoAddress.Proofs.Machine.Address

namespace TwoAddress

namespace Machine

variable {m : Meaning} {keeps : CarryPolicy} {t : Target} {s s' : State} {op : Opcode .binary}
  {ins : Instruction} {dst src a b : Operand} {group : List Instruction} {x : Word} {c : Bool}

/-- Run in state `s`, the code ends in `s'`. It has written `x` to `dst` and,
but for the scratch register and the carry, nothing else. -/
structure Computes (m : Meaning) (keeps : CarryPolicy) (scratch : Option Reg) (s : State)
    (code : List Instruction) (dst : Operand) (x : Word) (s' : State) : Prop where
  runs : m.run keeps s code = some s'
  writes : ∀ carry, AgreeOff scratch s' (s.set dst x carry)

/-! ## What is lent, and what a copy leaves alone -/

theorem avoids_lent {o : Operand} (ho : o ∈ ins.operands) : Avoids (t.lent ins) o := by
  intro r hr
  obtain ⟨_, hu⟩ := Target.lent_eq_some_iff.mp hr
  rw [Instruction.uses, List.any_eq_false] at hu
  simpa using hu o ho

theorem AgreeOff.of_lent (h : AgreeOff (t.lent ins) s s') : AgreeOff t.scratch s s' := by
  refine ⟨h.mem, ?_⟩
  intro r hr
  refine h.regs r ?_
  intro hlent
  exact hr (Target.lent_eq_some_iff.mp hlent).1

/-- The operation reads no carry. -/
def Free (op : Opcode .binary) : Prop :=
  ∀ f, Carry.Link.ofOpcode? op ≠ some ⟨.consume, f⟩

theorem free_of_link {l : Carry.Link} (hl : Carry.Link.ofOpcode? op = some l)
    (hrole : l.role ≠ .consume) : Free op := by
  intro f hf
  rw [hl, Option.some.injEq] at hf
  exact hrole (hf ▸ rfl)

theorem free_of_none (h : Carry.Link.ofOpcode? op = none) : Free op := by
  intro f hf
  exact nomatch h.symm.trans hf

theorem free_of_fusion {d : Reg} {sum : Address} (h : t.fusion? op dst a b = some (d, sum)) :
    Free op := by
  intro f hf
  obtain rfl := Carry.Link.ofOpcode?_eq_some_iff.mp hf
  simp [Target.fusion?, Carry.sumAddress?_of_consume] at h

/-- Copies leave the carry as it is. -/
def CarryPolicy.KeepsCopies (keeps : CarryPolicy) : Prop :=
  ∀ dst src, keeps (.binary .mov dst src) = true

theorem CarryPolicy.KeepsCopies.after_mov (h : keeps.KeepsCopies) (dst src : Operand)
    (carry : Option Bool) : keeps.after (.binary .mov dst src) carry = carry := by
  rw [CarryPolicy.after, if_pos (h dst src)]

/-- The operation computes with `c`, whether or not a copy comes before it. -/
structure Settled (keeps : CarryPolicy) (op : Opcode .binary) (carry : Option Bool)
    (c : Bool) : Prop where
  now : carryIn op carry = some c
  afterCopy : ∀ dst src, carryIn op (keeps.after (.binary .mov dst src) carry) = some c

theorem settled_of_free (h : Free op) (carry : Option Bool) : Settled keeps op carry false :=
  ⟨carryIn_of_free h carry, fun _ _ => carryIn_of_free h _⟩

theorem Settled.eq_false {carry : Option Bool} (h : Settled keeps op carry c) (hfree : Free op) :
    c = false :=
  Option.some.inj (h.now.symm.trans (carryIn_of_free hfree carry))

theorem settled_of_keepsCopies (hk : keeps.KeepsCopies) {carry : Option Bool}
    (h : carryIn op carry = some c) : Settled keeps op carry c := by
  refine ⟨h, ?_⟩
  intro dst src
  rw [hk.after_mov, h]

theorem AgreeOff.of_carry {scratch : Option Reg} {carry carry' : Option Bool} :
    AgreeOff scratch (s.set dst x carry) (s.set dst x carry') := by
  cases dst <;> exact ⟨rfl, fun _ _ => rfl⟩

theorem computes_of_run {scratch : Option Reg} {carry : Option Bool}
    (h : m.run keeps s group = some (s.set dst x carry)) :
    Computes m keeps scratch s group dst x (s.set dst x carry) :=
  ⟨h, fun _ => .of_carry⟩

/-! ## Single operations -/

section Operations

variable (m : Meaning) (keeps : CarryPolicy) (s : State)

theorem computes_one (scratch : Option Reg) (src : Operand) (hlea : op ≠ .lea)
    (hdst : dst.isImm = false) (hc : carryIn op s.carry = some c) :
    ∃ s', Computes m keeps scratch s [.binary op dst src] dst
        (m.value op (s.read dst) (s.read src) c) s' ∧
      ∀ l, Carry.Link.ofOpcode? op = some l →
        s'.carry = some (exceeds l.family (s.read dst) (s.read src) c) := by
  refine ⟨_, computes_of_run (Meaning.run_one (Meaning.step_operate hlea hdst hc)), ?_⟩
  intro l hl
  rw [State.carry_set, hl]

/-- An operation, written out for the target, computes what it says. Its source
may have been copied to the scratch register first, which its destination
survives. -/
theorem computes_operation (h : t.operation ins op dst src = .ok group) (hlea : op ≠ .lea)
    (hc : Settled keeps op s.carry c) (hdst : dst.isImm = false) (hd : Avoids (t.lent ins) dst) :
    ∃ s', Computes m keeps (t.lent ins) s group dst
        (m.value op (s.read dst) (s.read src) c) s' ∧
      ∀ l, Carry.Link.ofOpcode? op = some l →
        s'.carry = some (exceeds l.family (s.read dst) (s.read src) c) := by
  rcases Target.operation_eq_ok_iff.mp h with ⟨_, rfl⟩ | ⟨_, _, _, r, hscratch, hu, rfl⟩
  · exact computes_one m keeps s (t.lent ins) src hlea hdst hc.now
  · have hr : t.lent ins = some r := Target.lent_eq_some_iff.mpr ⟨hscratch, hu⟩
    obtain ⟨s₁, hs₁⟩ : ∃ s₁, s₁ = s.set (.reg r) (s.read src)
        (keeps.after (.binary .mov (.reg r) src) s.carry) := ⟨_, rfl⟩
    have hcopy : m.step keeps s (.binary .mov (.reg r) src) = some s₁ := by
      rw [hs₁]
      exact Meaning.step_mov rfl
    have hagree : AgreeOff (t.lent ins) s₁ s := hs₁ ▸ AgreeOff.set_scratch hr
    have hread : s₁.read dst = s.read dst := by
      rw [hs₁]
      exact State.read_set_of_apart (hd.apart hr)
    have hsrc : s₁.read (.reg r) = s.read src := by
      rw [hs₁]
      exact State.read_set_self rfl
    have hc₁ : carryIn op s₁.carry = some c := by
      rw [hs₁, State.carry_set]
      exact hc.afterCopy (.reg r) src
    obtain ⟨s₂, ⟨hrun, hwrites⟩, hcarry⟩ :=
      computes_one m keeps s₁ (t.lent ins) (.reg r) hlea hdst hc₁
    rw [hread, hsrc] at hwrites hcarry
    refine ⟨s₂, ⟨?_, ?_⟩, hcarry⟩
    · rw [Meaning.run_cons hcopy, hrun]
    · intro carry
      exact (hwrites carry).trans (hagree.set hd)

/-- Copying the first source and operating with the second is right where the
second does not change with the destination. -/
theorem run_copy_operate (a : Operand) (hlea : op ≠ .lea) (hc : Settled keeps op s.carry c)
    (hdst : dst.isImm = false) (hb : b.mayChangeWith dst = false) :
    ∃ carry, m.run keeps s [.binary .mov dst a, .binary op dst b] =
        some (s.set dst (m.value op (s.read a) (s.read b) c) carry) ∧
      ∀ l, Carry.Link.ofOpcode? op = some l →
        carry = some (exceeds l.family (s.read a) (s.read b) c) := by
  obtain ⟨s₁, hs₁⟩ : ∃ s₁, s₁ = s.set dst (s.read a)
      (keeps.after (.binary .mov dst a) s.carry) := ⟨_, rfl⟩
  have hcopy : m.step keeps s (.binary .mov dst a) = some s₁ := by
    rw [hs₁]
    exact Meaning.step_mov hdst
  have hc₁ : carryIn op s₁.carry = some c := by
    rw [hs₁, State.carry_set]
    exact hc.afterCopy dst a
  have hoperate : m.step keeps s₁ (.binary op dst b) = _ :=
    Meaning.step_operate hlea hdst hc₁
  rw [hs₁, State.read_set_self hdst, State.read_set_of_apart hb, State.set_set, ← hs₁] at hoperate
  refine ⟨_, (Meaning.run_cons hcopy).trans (Meaning.run_one hoperate), ?_⟩
  intro l hl
  rw [hl]

/-! ## Three operands -/

/-- Negating the destination and adding the first source is subtracting the
destination from it. -/
theorem computes_negateAdd (h : t.operation ins .add dst a = .ok group)
    (hdst : dst.isImm = false) (ha : a.mayChangeWith dst = false)
    (hd : Avoids (t.lent ins) dst) :
    ∃ s', Computes m keeps (t.lent ins) s (.unary .neg dst :: group) dst
      (m.value .sub (s.read a) (s.read dst) false) s' := by
  obtain ⟨s₁, hs₁⟩ : ∃ s₁, s₁ = s.set dst (m.unaryValue .neg (s.read dst))
      (keeps.after (.unary .neg dst) s.carry) := ⟨_, rfl⟩
  have hneg : m.step keeps s (.unary .neg dst) = some s₁ := by
    rw [hs₁]
    exact Meaning.step_unary hdst
  have hlink : Carry.Link.ofOpcode? .add = some ⟨.produce, .add⟩ := rfl
  have hfree : Free .add := free_of_link hlink (fun hrole => nomatch hrole)
  obtain ⟨s', ⟨hrun, hwrites⟩, _⟩ :=
    computes_operation m keeps s₁ h (by decide) (settled_of_free hfree s₁.carry) hdst hd
  refine ⟨s', ?_, ?_⟩
  · rw [Meaning.run_cons hneg, hrun]
  · intro carry
    have hwrites' := hwrites carry
    rw [hs₁, State.read_set_self hdst, State.read_set_of_apart ha, State.set_set] at hwrites'
    rw [m.value_sub_eq_add]
    exact hwrites'

/-- Computing in the scratch register leaves all operands as they are until the
result is copied. -/
theorem computes_viaScratch {r : Reg} (hr : t.lent ins = some r) (hlea : op ≠ .lea)
    (hc : Settled keeps op s.carry c) (hdst : dst.isImm = false) (hd : Avoids (t.lent ins) dst)
    (hb : Avoids (t.lent ins) b) :
    ∃ s', Computes m keeps (t.lent ins) s
        [.binary .mov (.reg r) a, .binary op (.reg r) b, .binary .mov dst (.reg r)] dst
        (m.value op (s.read a) (s.read b) c) s' ∧
      (keeps.KeepsCopies → ∀ l, Carry.Link.ofOpcode? op = some l →
        s'.carry = some (exceeds l.family (s.read a) (s.read b) c)) := by
  have hreg : (Operand.reg r).isImm = false := rfl
  obtain ⟨carry, hrun, hcarry⟩ := run_copy_operate m keeps s a hlea hc hreg (hb.apart hr)
  obtain ⟨x, hx⟩ : ∃ x, x = m.value op (s.read a) (s.read b) c := ⟨_, rfl⟩
  rw [← hx] at hrun ⊢
  have hback : m.step keeps (s.set (.reg r) x carry) (.binary .mov dst (.reg r)) =
      some ((s.set (.reg r) x carry).set dst x
        (keeps.after (.binary .mov dst (.reg r)) carry)) := by
    rw [Meaning.step_mov hdst, State.read_set_self rfl, State.carry_set]
  have hall := (Meaning.run_append hrun).trans (Meaning.run_one hback)
  refine ⟨_, ⟨hall, fun _ => (AgreeOff.set_scratch hr).set hd⟩, ?_⟩
  intro hk l hl
  rw [State.carry_set, hk.after_mov, hcarry l hl]

/-- What a three-operand instruction becomes computes its value, in all of the
ways in which it is lowered. If it reads a carry, and copies keep it, then the
carry that it leaves is there at the end. -/
theorem computes_ternary {op3 : Opcode .ternary}
    (h : t.lower (.ternary op3 dst a b) = .ok group) (hop : op3.ternaryToBinary? = some op)
    (hc : Settled keeps op s.carry c) :
    ∃ s', Computes m keeps (t.lent (.ternary op3 dst a b)) s group dst
        (m.value op (s.read a) (s.read b) c) s' ∧
      (keeps.KeepsCopies → ∀ l, Carry.Link.ofOpcode? op = some l → l.role = .consume →
        s'.carry = some (exceeds l.family (s.read a) (s.read b) c)) := by
  obtain ⟨hlea, _, _⟩ := Opcode.ternaryToBinary?_ordinary hop
  obtain ⟨op', plan, hop', hdst, hj, he⟩ := Target.lower_ternary h
  obtain rfl := Option.some.inj (hop.symm.trans hop')
  have hd : Avoids (t.lent (.ternary op3 dst a b)) dst :=
    avoids_lent (Instruction.mem_operands_ternary.mpr (.inl rfl))
  have hb : Avoids (t.lent (.ternary op3 dst a b)) b :=
    avoids_lent (Instruction.mem_operands_ternary.mpr (.inr (.inr rfl)))
  cases hj with
  | reuse hsame =>
      subst hsame
      obtain ⟨s', hs', hcarry⟩ := computes_operation m keeps s he hlea hc hdst hd
      exact ⟨s', hs', fun _ l hl _ => hcarry l hl⟩
  | fuse _ hf =>
      cases he
      -- what is fused is no link, so there is no carry to add
      have hfree := free_of_fusion hf
      obtain ⟨rfl, hsum⟩ := address_fusion m s hf
      rw [hc.eq_false hfree, ← hsum]
      refine ⟨_, computes_of_run (Meaning.run_one (Meaning.step_lea hdst)), ?_⟩
      rintro _ ⟨role, f⟩ hl hrole
      obtain rfl : role = .consume := hrole
      exact absurd hl (hfree f)
  | commute _ hsame hcomm =>
      subst hsame
      obtain ⟨s', hs', hcarry⟩ := computes_operation m keeps s he hlea hc hdst hd
      rw [m.value_comm hcomm]
      refine ⟨s', hs', ?_⟩
      intro _ l hl _
      obtain rfl := Carry.Link.ofOpcode?_eq_some_iff.mp hl
      rw [hcarry l hl, exceeds_comm hcomm]
  | negateAdd hsame hsub ha =>
      subst hsame hsub
      obtain ⟨rest, hrest, hgroup⟩ := bind_eq_ok_iff.mp he
      cases hgroup
      -- `SUB` leaves a borrow but reads none
      have hlink : Carry.Link.ofOpcode? .sub = some ⟨.produce, .sub⟩ := rfl
      have hfree : Free .sub := free_of_link hlink (fun hrole => nomatch hrole)
      obtain ⟨s', hs'⟩ := computes_negateAdd m keeps s hrest hdst ha hd
      rw [hc.eq_false hfree]
      refine ⟨s', hs', ?_⟩
      intro _ l hl hrole
      obtain rfl := Option.some.inj (hlink.symm.trans hl)
      exact nomatch hrole
  | commuteMove _ hcomm ha =>
      cases he
      obtain ⟨carry, hrun, hcarry⟩ := run_copy_operate m keeps s b hlea hc hdst ha
      rw [m.value_comm hcomm]
      refine ⟨_, ⟨hrun, fun _ => .of_carry⟩, ?_⟩
      intro _ l hl _
      obtain rfl := Carry.Link.ofOpcode?_eq_some_iff.mp hl
      rw [State.carry_set, hcarry l hl, exceeds_comm hcomm]
  | viaScratch _ =>
      obtain ⟨r, hfor, hgroup⟩ := bind_eq_ok_iff.mp he
      cases hgroup
      have hr := Target.lent_eq_some_iff.mpr (Target.scratchFor_eq_ok_iff.mp hfor)
      obtain ⟨s', hs', hcarry⟩ := computes_viaScratch m keeps s hr hlea hc hdst hd hb
      exact ⟨s', hs', fun hk l hl _ => hcarry hk l hl⟩
  | moveOperate hb _ =>
      cases he
      obtain ⟨carry, hrun, hcarry⟩ := run_copy_operate m keeps s a hlea hc hdst hb
      refine ⟨_, ⟨hrun, fun _ => .of_carry⟩, ?_⟩
      intro _ l hl _
      rw [State.carry_set, hcarry l hl]

/-! ## Two operands, and four -/

theorem computes_copied {copy : List Instruction} {unary : Opcode .unary}
    (h : t.operation ins .mov dst src = .ok copy) (hdst : dst.isImm = false)
    (hd : Avoids (t.lent ins) dst) :
    ∃ s', Computes m keeps (t.lent ins) s (copy ++ [.unary unary dst]) dst
      (m.unaryValue unary (s.read src)) s' := by
  have hfree : Free .mov := free_of_none rfl
  obtain ⟨s₁, ⟨hrun, hwrites⟩, _⟩ :=
    computes_operation m keeps s h (by decide) (settled_of_free hfree s.carry) hdst hd
  have hread : s₁.read dst = s.read src := by
    rw [(hwrites none).read hd, State.read_set_self hdst, m.value_mov]
  have hunary : m.step keeps s₁ (.unary unary dst) = _ := Meaning.step_unary hdst
  rw [hread] at hunary
  refine ⟨_, (Meaning.run_append hrun).trans (Meaning.run_one hunary), ?_⟩
  intro carry
  rw [← State.set_set (s := s) (x := m.value .mov (s.read dst) (s.read src) false) (c := none)]
  exact (hwrites none).set hd

/-- What a two-operand instruction becomes computes its value, unless it is an
address computation, or reads a carry. -/
theorem computes_binary (h : t.lower (.binary op dst src) = .ok group) (hlea : op ≠ .lea)
    (hfree : Free op) :
    ∃ s', Computes m keeps (t.lent (.binary op dst src)) s group dst
        (m.value op (s.read dst) (s.read src) false) s' ∧
      ∀ l, Carry.Link.ofOpcode? op = some l →
        s'.carry = some (exceeds l.family (s.read dst) (s.read src) false) := by
  obtain ⟨hdst, hgroup⟩ := Target.lower_binary h
  have hd : Avoids (t.lent (.binary op dst src)) dst :=
    avoids_lent (Instruction.mem_operands_binary.mpr (.inl rfl))
  have not_link {unary : Opcode .unary} (hu : op.toUnary? = some unary) (l : Carry.Link)
      (hl : Carry.Link.ofOpcode? op = some l) : False := by
    obtain rfl := Carry.Link.ofOpcode?_eq_some_iff.mp hl
    exact nomatch hu.symm.trans l.opcode_plain.2.2
  cases hgroup with
  | address hop _ _ _ _ => exact absurd hop hlea
  | inPlace hu hsame =>
      subst hsame
      rw [m.value_toUnary hu]
      exact ⟨_, computes_of_run (Meaning.run_one (Meaning.step_unary hdst)),
        fun l hl => (not_link hu l hl).elim⟩
  | copied hu hcopy =>
      obtain ⟨s', hs'⟩ := computes_copied m keeps s hcopy hdst hd
      rw [m.value_toUnary hu]
      exact ⟨s', hs', fun l hl => (not_link hu l hl).elim⟩
  | operated _ _ hoperation =>
      exact computes_operation m keeps s hoperation hlea (settled_of_free hfree s.carry) hdst hd

theorem computes_quaternary {op4 : Opcode .quaternary} {base index scale : Operand}
    (h : t.lower (.quaternary op4 dst base index scale) = .ok group) :
    ∃ y s', s.baseValue base = some y ∧ s'.carry = s.carry ∧
      Computes m keeps t.scratch s group dst (y + s.read index * s.read scale) s' := by
  obtain ⟨mode, d, k, addr, sum, _, _, rfl, hk, ha, hsum, _, rfl⟩ := Target.lower_quaternary h
  obtain ⟨hnone, hbase⟩ := baseValue_baseOf s ha
  have hvalue : s.address sum = s.address addr + s.read index * s.read scale := by
    rw [address_addIndex s hnone hsum, read_scale s hk]
  refine ⟨s.address addr, s.set (.reg d) (s.address sum) s.carry, hbase, State.carry_set, ?_⟩
  rw [← hvalue]
  exact computes_of_run (Meaning.run_one (Meaning.step_lea rfl))

end Operations

end Machine

end TwoAddress
