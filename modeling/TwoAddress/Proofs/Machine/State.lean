/-
# `Proofs.Machine.State` — registers, memory and one carry

The machine on which code is run has a word in every register, a word at every
address, and one carry, which may be undefined. What an operand stands for is
read off the state (`State.read`), and results are written by `State.set`, which
says what becomes of the carry at the same time.

Lowering may overwrite its scratch register, so states are compared outside of
it (`AgreeOff`). Three laws of `set` are all that the proofs about lowered code
need: what is written is read back (`read_set_self`), whatever cannot change
with the destination is still there (`read_set_of_apart`), and a second write to
one destination makes the first undone (`set_set`).
-/
import Mathlib.Data.BitVec
import Mathlib.Logic.Function.Basic
import TwoAddress.Proofs.Lowering.Strategy

namespace TwoAddress

namespace Machine

abbrev Word := BitVec 64

/-- The word of an exact integer, which wraps. -/
def word (i : Int) : Word := BitVec.ofInt 64 i

/-- What the machine holds between two instructions. -/
structure State where
  regs : Reg → Word
  /-- The words of the memory, each at an address of its own. -/
  mem : Word → Word
  /-- Undefined once an instruction has left nothing sure behind. -/
  carry : Option Bool

namespace State

/-- The number that an address stands for. -/
def address (s : State) (a : Address) : Word :=
  (a.base.elim 0 s.regs) +
    (a.index.elim 0 fun x => s.regs x.reg * word x.scale.toNat) + word a.disp.toInt

def read (s : State) : Operand → Word
  | .reg r => s.regs r
  | .mem a => s.mem (s.address a)
  | .imm k => word k.toInt

/-- The state with a value written and the carry replaced. Nothing can be
written to an immediate. -/
def set (s : State) (dst : Operand) (x : Word) (carry : Option Bool) : State :=
  match dst with
  | .reg r => ⟨Function.update s.regs r x, s.mem, carry⟩
  | .mem a => ⟨s.regs, Function.update s.mem (s.address a) x, carry⟩
  | .imm _ => ⟨s.regs, s.mem, carry⟩

variable {s : State} {dst o : Operand} {x y : Word} {c c' : Option Bool}

@[simp] theorem carry_set : (s.set dst x c).carry = c := by
  cases dst <;> rfl

/-! ## Reading after writing -/

theorem address_congr {s s' : State} {a : Address}
    (h : ∀ r, a.uses r = true → s.regs r = s'.regs r) : s.address a = s'.address a := by
  have hbase : a.base.elim 0 s.regs = a.base.elim 0 s'.regs := by
    cases hb : a.base with
    | none => rfl
    | some r => exact h r (by simp [Address.uses, hb])
  have hindex : (a.index.elim 0 fun x => s.regs x.reg * word x.scale.toNat) =
      a.index.elim 0 fun x => s'.regs x.reg * word x.scale.toNat := by
    cases hi : a.index with
    | none => rfl
    | some i =>
        have hr := h i.reg (by simp [Address.uses, hi])
        simp only [Option.elim_some, hr]
  rw [address, address, hbase, hindex]

theorem address_set_reg {r : Reg} {a : Address} (h : a.uses r = false) :
    (s.set (.reg r) x c).address a = s.address a := by
  refine address_congr ?_
  intro r' hr'
  refine Function.update_of_ne ?_ _ _
  rintro rfl
  simp [h] at hr'

theorem read_set_self (h : dst.isImm = false) : (s.set dst x c).read dst = x := by
  cases dst with
  | reg r => exact Function.update_self r x s.regs
  | mem a => exact Function.update_self (s.address a) x s.mem
  | imm k => exact nomatch h

theorem read_set_of_apart (h : o.mayChangeWith dst = false) :
    (s.set dst x c).read o = s.read o := by
  obtain ⟨hdep, hmem⟩ := Operand.mayChangeWith_eq_false_iff.mp h
  cases dst with
  | imm k => cases o <;> rfl
  | mem a =>
      cases o with
      | reg r => rfl
      | imm k => rfl
      | mem b => exact nomatch hmem rfl
  | reg d =>
      have hd : o.uses d = false := by simpa [Operand.dependsOn, Operand.reg?] using hdep
      cases o with
      | imm k => rfl
      | reg r =>
          have hne : r ≠ d := by simpa [Operand.uses] using hd
          exact Function.update_of_ne hne x s.regs
      | mem b => exact congrArg s.mem (address_set_reg hd)

theorem set_set : (s.set dst x c).set dst y c' = s.set dst y c' := by
  cases dst with
  | imm k => rfl
  | reg r => simp only [set, Function.update_idem]
  | mem a =>
      show State.mk s.regs (Function.update (Function.update s.mem (s.address a) x)
        (s.address a) y) c' = _
      rw [Function.update_idem]
      rfl

end State

/-! ## Agreement outside the scratch register -/

/-- The operand has nothing to do with the scratch register. -/
def Avoids (scratch : Option Reg) (o : Operand) : Prop :=
  ∀ r, scratch = some r → o.uses r = false

/-- The states have the same memory and, but for the scratch register, the same
registers. -/
structure AgreeOff (scratch : Option Reg) (s s' : State) : Prop where
  mem : s.mem = s'.mem
  regs : ∀ r, scratch ≠ some r → s.regs r = s'.regs r

namespace AgreeOff

variable {scratch : Option Reg} {s s' s'' : State} {dst o : Operand} {x : Word}
  {c c' : Option Bool}

theorem refl (s : State) : AgreeOff scratch s s := ⟨rfl, fun _ _ => rfl⟩

theorem symm (h : AgreeOff scratch s s') : AgreeOff scratch s' s :=
  ⟨h.mem.symm, fun r hr => (h.regs r hr).symm⟩

theorem trans (h : AgreeOff scratch s s') (h' : AgreeOff scratch s' s'') :
    AgreeOff scratch s s'' :=
  ⟨h.mem.trans h'.mem, fun r hr => (h.regs r hr).trans (h'.regs r hr)⟩

theorem address (h : AgreeOff scratch s s') {a : Address} (ha : Avoids scratch (.mem a)) :
    s.address a = s'.address a := by
  refine State.address_congr ?_
  intro r hr
  refine h.regs r ?_
  intro hs
  have hno : a.uses r = false := ha r hs
  simp [hr] at hno

theorem read (h : AgreeOff scratch s s') (ho : Avoids scratch o) : s.read o = s'.read o := by
  cases o with
  | imm k => rfl
  | reg r =>
      refine h.regs r ?_
      intro hs
      have hno := ho r hs
      simp [Operand.uses] at hno
  | mem a =>
      show s.mem (s.address a) = s'.mem (s'.address a)
      rw [h.mem, h.address ho]

/-- Agreement outlasts a write, whatever becomes of the two carries. -/
theorem set (h : AgreeOff scratch s s') (hdst : Avoids scratch dst) :
    AgreeOff scratch (s.set dst x c) (s'.set dst x c') := by
  cases dst with
  | imm k => exact ⟨h.mem, h.regs⟩
  | reg d =>
      refine ⟨h.mem, ?_⟩
      intro r hr
      rcases eq_or_ne r d with rfl | hne
      · exact (Function.update_self r x s.regs).trans (Function.update_self r x s'.regs).symm
      · exact (Function.update_of_ne hne x s.regs).trans
          ((h.regs r hr).trans (Function.update_of_ne hne x s'.regs).symm)
  | mem a =>
      refine ⟨?_, h.regs⟩
      show Function.update s.mem (s.address a) x = Function.update s'.mem (s'.address a) x
      rw [h.mem, h.address hdst]

theorem set_scratch {r : Reg} (hr : scratch = some r) :
    AgreeOff scratch (s.set (.reg r) x c) s := by
  refine ⟨rfl, ?_⟩
  intro r' hr'
  have hne : r' ≠ r := by
    rintro rfl
    exact hr' hr
  exact Function.update_of_ne hne x s.regs

end AgreeOff

theorem Avoids.apart {scratch : Option Reg} {o : Operand} {r : Reg} (h : Avoids scratch o)
    (hr : scratch = some r) : o.mayChangeWith (.reg r) = false := by
  refine Operand.mayChangeWith_eq_false_iff.mpr ⟨?_, fun hm => nomatch hm⟩
  simpa [Operand.dependsOn, Operand.reg?] using h r hr

end Machine

end TwoAddress
