/-
# `Proofs.Machine.Carried` — sums and differences that take a carry

`ADC3` and `SBB3` read a carry and leave one. A block takes them only where they
become one instruction, but lowered on their own they may become any of the groups
that other operations become, with copies before the operation and after it. Where
copies keep the carry, each of these groups still computes the exact sum or
difference: its low word at the destination, and what is carried or borrowed beyond
it as the carry (`total_exceeds`). That destination is the place named in the state
before, and nothing else is written but the scratch register (`Written`).
-/
import TwoAddress.Proofs.Machine.Emitted

namespace TwoAddress

/-- The three-operand operation that takes a carry of the family. -/
def Carry.Family.ternary : Carry.Family → Opcode .ternary
  | .add => .adc3
  | .sub => .sbb3

namespace Machine

open Carry (Family Link)

variable {m : Meaning} {keeps : CarryPolicy} {t : Target} {s s' : State} {ins : Instruction}
  {dst a b : Operand} {group : List Instruction} {x : Word} {c : Bool} {f : Family}

/-! ## The exact result -/

/-- The word `x` and the carry `c'` together are the sum or difference of two words and
a carry, as integers. -/
def Exact (f : Family) (a b : Word) (c : Bool) (x : Word) (c' : Bool) : Prop :=
  match f with
  | .add => (x.toNat + 2 ^ 64 * c'.toNat : Int) = a.toNat + b.toNat + c.toNat
  | .sub => (x.toNat - 2 ^ 64 * c'.toNat : Int) = a.toNat - b.toNat - c.toNat

instance (f : Family) (a b : Word) (c : Bool) (x : Word) (c' : Bool) :
    Decidable (Exact f a b c x c') :=
  match f with
  | .add => inferInstanceAs (Decidable ((_ : Int) = _))
  | .sub => inferInstanceAs (Decidable ((_ : Int) = _))

theorem toNat_word_carry (c : Bool) : (word c.toNat).toNat = c.toNat := by
  cases c <;> rfl

theorem total_exceeds (f : Family) (a b : Word) (c : Bool) :
    Exact f a b c (total f a b c) (exceeds f a b c) := by
  have ha := a.isLt
  have hb := b.isLt
  have hc : c.toNat ≤ 1 := Bool.toNat_le c
  cases f with
  | add =>
      have hx : (total .add a b c).toNat = (a.toNat + b.toNat + c.toNat) % 2 ^ 64 := by
        rw [total, BitVec.toNat_add, BitVec.toNat_add, toNat_word_carry, Nat.mod_add_mod]
      simp only [Exact, exceeds, hx]
      by_cases h : 2 ^ 64 ≤ a.toNat + b.toNat + c.toNat
      · simp only [h, decide_true, Bool.toNat_true]
        omega
      · simp only [h, decide_false, Bool.toNat_false]
        omega
  | sub =>
      have hx : (total .sub a b c).toNat =
          (2 ^ 64 - c.toNat + (2 ^ 64 - b.toNat + a.toNat) % 2 ^ 64) % 2 ^ 64 := by
        rw [total, BitVec.toNat_sub, BitVec.toNat_sub, toNat_word_carry]
      simp only [Exact, exceeds, hx]
      by_cases h : a.toNat < b.toNat + c.toNat
      · simp only [h, decide_true, Bool.toNat_true]
        omega
      · simp only [h, decide_false, Bool.toNat_false]
        omega

/-! ## Where it is written -/

/-- `s'` is `s` with `x` at the destination, whose place is that in `s`, and otherwise
differs from it in the spare register at most, and in the carry. -/
structure Written (spare : Option Reg) (s : State) (dst : Operand) (x : Word) (s' : State) :
    Prop where
  reg : ∀ d, dst = .reg d → s'.regs d = x
  word : ∀ place, dst = .mem place → s'.mem (s.address place) = x
  otherRegs : ∀ r, dst ≠ .reg r → spare ≠ some r → s'.regs r = s.regs r
  otherWords : ∀ w, (∀ place, dst = .mem place → w ≠ s.address place) → s'.mem w = s.mem w

/-- What is computed for an instruction is written to its destination. -/
theorem Computes.written (h : Computes m keeps (t.lent ins) s group dst x s')
    (hd : dst ∈ ins.operands) : Written t.scratch s dst x s' := by
  obtain ⟨hmem, hregs⟩ := h.writes none
  refine ⟨?_, ?_, ?_, ?_⟩
  · rintro d rfl
    have hlent : t.lent ins ≠ some d := by
      intro hr
      have hu : (Operand.reg d).uses d = false := avoids_lent hd d hr
      simp [Operand.uses] at hu
    rw [hregs d hlent]
    exact Function.update_self d x s.regs
  · rintro place rfl
    rw [hmem]
    exact Function.update_self (s.address place) x s.mem
  · intro r hr hspare
    have hlent : t.lent ins ≠ some r := fun h => hspare (Target.lent_eq_some_iff.mp h).1
    rw [hregs r hlent]
    cases dst with
    | reg d =>
        have hne : r ≠ d := fun hrd => hr (congrArg Operand.reg hrd.symm)
        exact Function.update_of_ne hne x s.regs
    | mem place => rfl
    | imm k => rfl
  -- a word changes only if it is the one that the destination names
  · intro w hw
    rw [hmem]
    cases dst with
    | reg d => rfl
    | mem place => exact Function.update_of_ne (hw place rfl) x s.mem
    | imm k => rfl

/-! ## The operations that take a carry -/

theorem of?_carried (f : Family) (dst a b : Operand) :
    Link.of? (.ternary f.ternary dst a b) = some ⟨.consume, f⟩ := by
  cases f <;> rfl

theorem mem_linkGroup {l : Link} {w g : Instruction} (h : Carry.LinkGroup l group w)
    (hg : g ∈ group) : (∃ d src, g = .binary .mov d src) ∨ ∃ d src, g = .binary l.opcode d src := by
  cases h with
  | alone hw =>
      obtain rfl := List.mem_singleton.mp hg
      exact .inr (Link.worksIn_iff.mp hw)
  | afterCopy hw =>
      rcases List.mem_cons.mp hg with rfl | hg
      · exact .inl ⟨_, _, rfl⟩
      · obtain rfl := List.mem_singleton.mp hg
        exact .inr (Link.worksIn_iff.mp hw)
  | betweenCopies _ hw =>
      rcases List.mem_cons.mp hg with rfl | hg
      · exact .inl ⟨_, _, rfl⟩
      · rcases List.mem_cons.mp hg with rfl | hg
        · exact .inr (Link.worksIn_iff.mp hw)
        · obtain rfl := List.mem_singleton.mp hg
          exact .inl ⟨_, _, rfl⟩

/-- What is computed, before it is said where it stands. -/
theorem computes_carried (h : t.lower (.ternary f.ternary dst a b) = .ok group) (m : Meaning)
    (hkeeps : keeps.KeepsCopies) (hc : s.carry = some c) :
    ∃ s', Computes m keeps (t.lent (.ternary f.ternary dst a b)) s group dst
        (total f (s.read a) (s.read b) c) s' ∧
      s'.carry = some (exceeds f (s.read a) (s.read b) c) := by
  obtain ⟨hop, hrole⟩ := Link.of?_ternary (of?_carried f dst a b)
  have hof : Link.ofOpcode? (Link.mk .consume f).opcode = some ⟨.consume, f⟩ :=
    Link.ofOpcode?_eq_some_iff.mpr rfl
  have hsettled := settled_of_keepsCopies hkeeps ((carryIn_of_consume hof s.carry).trans hc)
  obtain ⟨s', hs', hcarry⟩ := computes_ternary m keeps s h hop hsettled
  refine ⟨s', ?_, hcarry hkeeps _ hof hrole⟩
  rwa [Meaning.value, hof] at hs'

/-- Where copies keep the carry, what an `ADC3` or `SBB3` becomes runs to its end from
every state that has a carry. The destination then holds the sum or difference and the
carry is what goes beyond it, both of the values before; no other word and no other
register than the scratch register has changed. Nothing but copies and the operation
itself is made of it, so a difference is not taken apart into a negation and a sum.
The sources of an `ADC3` may be swapped: the same carry is left. -/
theorem lower_carried (h : t.lower (.ternary f.ternary dst a b) = .ok group) (m : Meaning)
    (hkeeps : keeps.KeepsCopies) (hc : s.carry = some c) :
    ∃ s' x c', m.run keeps s group = some s' ∧
      (x = total f (s.read a) (s.read b) c ∧ Exact f (s.read a) (s.read b) c x c') ∧
      Written t.scratch s dst x s' ∧ s'.carry = some c' ∧
      (∀ g ∈ group, (∃ d src, g = .binary .mov d src) ∨
        ∃ d src, g = .binary (Link.mk .consume f).opcode d src) ∧
      (f = .add → ∀ swapped, t.lower (.ternary .adc3 dst b a) = .ok swapped →
        ∃ s'', m.run keeps s swapped = some s'' ∧ s''.carry = some c' ∧
          Written t.scratch s dst x s'') := by
  obtain ⟨s', hs', hcarry⟩ := computes_carried h m hkeeps hc
  have hdst (a b : Operand) : dst ∈ (Instruction.ternary f.ternary dst a b).operands :=
    Instruction.mem_operands_ternary.mpr (.inl rfl)
  refine ⟨s', _, _, hs'.runs, ⟨rfl, total_exceeds f _ _ c⟩, hs'.written (hdst a b), hcarry, ?_, ?_⟩
  · intro g hg
    obtain ⟨w, hgroup⟩ := Carry.lower_link (of?_carried f dst a b) h
    exact mem_linkGroup hgroup hg
  · rintro rfl swapped hswapped
    have hsame : t.lower (.ternary Family.add.ternary dst b a) = .ok swapped := hswapped
    obtain ⟨s'', hs'', hcarry''⟩ := computes_carried hsame m hkeeps hc
    rw [total_add_comm] at hs''
    rw [exceeds_add_comm] at hcarry''
    exact ⟨s'', hs''.runs, hcarry'', hs''.written (hdst b a)⟩

/-- A difference in memory whose second source is the destination, which goes through
the scratch register. -/
theorem lower_carried_aliased :
    let t := Target.amd64WithScratch ⟨15⟩
    let m : Meaning := ⟨fun _ a => a, fun _ a _ => a⟩
    let s : State := ⟨fun r => word r.index.toNat, fun w => w, some true⟩
    let place : Address := ⟨some ⟨2⟩, none, 8⟩
    let group : List Instruction :=
      [.binary .mov (.reg ⟨15⟩) (.reg ⟨3⟩), .binary .sbb (.reg ⟨15⟩) (.mem place),
        .binary .mov (.mem place) (.reg ⟨15⟩)]
    t.lower (.ternary .sbb3 (.mem place) (.reg ⟨3⟩) (.mem place)) = .ok group ∧
      ∃ s', m.run (fun _ => true) s group = some s' ∧ s'.mem 10 = 0xfffffffffffffff8 ∧
        s'.carry = some true ∧ s'.regs ⟨3⟩ = 3 := by
  intro t m s place group
  have hlow : t.lower (.ternary Family.sub.ternary (.mem place) (.reg ⟨3⟩) (.mem place)) =
      .ok group := rfl
  have hkeeps : CarryPolicy.KeepsCopies fun _ => true := fun _ _ => rfl
  have hc : s.carry = some true := rfl
  obtain ⟨s', x, c', hrun, ⟨hx, hexact⟩, hwritten, hcarry, _⟩ := lower_carried hlow m hkeeps hc
  have hvalue : x = 0xfffffffffffffff8 := hx.trans (by decide)
  refine ⟨hlow, s', hrun, ?_, ?_, ?_⟩
  · exact (hwritten.word place rfl).trans hvalue
  · rw [hvalue] at hexact
    cases c' with
    | true => exact hcarry
    | false => exact absurd hexact (by decide)
  · exact hwritten.otherRegs ⟨3⟩ (fun h => nomatch h) (by decide)

end Machine

end TwoAddress
