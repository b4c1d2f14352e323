/-
# `Proofs.Lowering.Permutation` — lowering does not depend on register numbers

A block with its registers renamed is lowered, for the target with its scratch register
renamed, to the same code with its registers renamed: each item has its origin and its
mark still, and an error is the same error about renamed instructions
(`lowerBlock_rename`).

One instruction is `Target.lower_rename`. What ties the instructions of a block together
is the carry, and the tracker follows it by opcodes and places alone: an instruction is
the link that it was before (`of?_rename`), so a carry is needed where it was needed
(`demand_rename`), and a renamed tracker answers to a renamed instruction what it
answered before (`outcome_pass_rename`). From one place the same goes for a whole run
by induction (`lowerFrom_rename`).

So the number of the scratch register cannot matter either. To exchange two registers
that a block does not use leaves the block as it is and makes the one the scratch
register where the other was.
-/
import TwoAddress.Proofs.Lowering.Acceptance
import TwoAddress.Proofs.Lowering.Renaming

namespace TwoAddress

variable {p : Equiv.Perm Reg} {ins : Instruction} {block : List Instruction}

/-! ## Lowered code -/

def Lowered.rename (p : Equiv.Perm Reg) (x : Lowered) : Lowered :=
  { x with instruction := x.instruction.rename p }

def LoweredBlock.rename (p : Equiv.Perm Reg) (b : LoweredBlock) : LoweredBlock :=
  ⟨b.items.map (Lowered.rename p)⟩

theorem LoweredBlock.rename_symm (b : LoweredBlock) : (b.rename p).rename p.symm = b := by
  have hitem : Lowered.rename p.symm ∘ Lowered.rename p = id := by
    funext x
    simp [Lowered.rename, Instruction.rename_symm]
  rw [rename, rename, List.map_map, hitem, List.map_id]

/-! ## Chains of carries -/

namespace Carry

theorem Link.of?_rename : Link.of? (ins.rename p) = Link.of? ins := by
  cases ins <;> rfl

theorem Link.worksIn_rename {l : Link} : l.worksIn (ins.rename p) = l.worksIn ins := by
  cases ins <;> rfl

theorem demandScan_rename (block : List Instruction) :
    demandScan (block.map (Instruction.rename p)) = demandScan block := by
  induction block with
  | nil => rfl
  | cons ins rest ih => simp only [List.map_cons, demandScan, ih, Link.of?_rename]

theorem demand_rename (block : List Instruction) :
    demand (block.map (Instruction.rename p)) = demand block := by
  rw [demand, demand, demandScan_rename]

theorem markLink_rename {l : Link} (group : List Instruction) :
    markLink l (group.map (Instruction.rename p)) =
      (markLink l group).map (Prod.map (Instruction.rename p) id) := by
  have hworks : l.worksIn ∘ Instruction.rename p = l.worksIn := funext fun _ => Link.worksIn_rename
  induction group with
  | nil => rfl
  | cons g rest ih =>
      simp only [List.map_cons, markLink, Link.worksIn_rename, List.any_map, hworks, ih]
      split
      · simp
      · rfl

theorem marked_rename (group : List Instruction) :
    marked (ins.rename p) (group.map (Instruction.rename p)) =
      (marked ins group).map (Prod.map (Instruction.rename p) id) := by
  rw [marked, marked, Link.of?_rename]
  cases Link.of? ins with
  | none => simp
  | some l => exact markLink_rename group

def Pending.rename (p : Equiv.Perm Reg) (q : Pending) : Pending :=
  { q with source := q.source.rename p }

def Tracker.rename (p : Equiv.Perm Reg) (tracker : Tracker) : Tracker :=
  ⟨tracker.pending.map (Pending.rename p)⟩

namespace Tracker

variable {tracker : Tracker} {origin : Nat} {link : Option Link} {needed : Bool}

theorem rename_afterLink {family : Family} :
    (afterLink origin family ins needed).rename p =
      afterLink origin family (ins.rename p) needed := by
  cases needed <;> rfl

/-- What the tracker answers does not depend on registers. -/
theorem outcome_pass_rename :
    ((tracker.rename p).pass origin (ins.rename p) link needed).outcome =
      renameResult p (rename p) (tracker.pass origin ins link needed).outcome := by
  rw [outcome_pass, outcome_pass]
  obtain ⟨_ | q⟩ := tracker
  · rcases link with _ | ⟨_ | _, family⟩
    · rfl
    · exact congrArg Except.ok rename_afterLink.symm
    · rfl
  · rcases link with _ | ⟨_ | _, family⟩
    · simp only [rename, observe, Option.map_some, Instruction.preservesCarry_rename]
      split <;> rfl
    · rfl
    · simp only [rename, observe, Option.map_some, Pending.rename]
      split
      · exact congrArg Except.ok rename_afterLink.symm
      · rfl

theorem outcome_close_rename :
    (tracker.rename p).close.outcome = renameResult p id tracker.close.outcome := by
  obtain ⟨_ | q⟩ := tracker <;> rfl

theorem outcome_passGroup_rename (items : List (Instruction × Option Link)) :
    (passGroup origin needed (tracker.rename p)
        (items.map (Prod.map (Instruction.rename p) id))).outcome =
      renameResult p (Prod.map (rename p) (List.map (Lowered.rename p)))
        (passGroup origin needed tracker items).outcome := by
  induction items generalizing tracker with
  | nil => rfl
  | cons item rest ih =>
      obtain ⟨g, link⟩ := item
      simp only [List.map_cons, Prod.map_apply, id, passGroup, Traced.outcome_bind,
        Traced.outcome_note, outcome_pass_rename]
      refine renameResult_bind fun next => ?_
      show _ >>= _ = renameResult p _ (_ >>= _)
      simp only [ih]
      refine renameResult_bind fun x => ?_
      rw [Instruction.preservesCarry_rename]
      rfl

end Tracker

theorem lowerPlace_rename {t : Target} {i : Nat} {tracker : Tracker} {needed : Bool} :
    lowerPlace (t.rename p) i (tracker.rename p) (ins.rename p) needed =
      renameResult p (Prod.map (Tracker.rename p) (List.map (Lowered.rename p)))
        (lowerPlace t i tracker ins needed) := by
  rw [lowerPlace, lowerPlace, Target.lower_rename]
  refine renameResult_bind fun group => ?_
  rw [marked_rename]
  exact Tracker.outcome_passGroup_rename _

end Carry

/-! ## Blocks -/

namespace Target

open Carry

variable {t : Target}

theorem lowerFrom_rename (i : Nat) (tracker : Tracker) (rest : List (Instruction × Bool)) :
    ((t.rename p).lowerFrom i (tracker.rename p)
        (rest.map (Prod.map (Instruction.rename p) id))).outcome =
      renameResult p (List.map (Lowered.rename p)) (t.lowerFrom i tracker rest).outcome := by
  induction rest generalizing i tracker with
  | nil =>
      simp only [List.map_nil, lowerFrom, Traced.outcome_bind, Tracker.outcome_close_rename]
      exact renameResult_bind fun _ => rfl
  | cons x rest ih =>
      obtain ⟨ins, needed⟩ := x
      rw [List.map_cons, Prod.map_apply, outcome_lowerFrom_cons, outcome_lowerFrom_cons, id,
        lowerPlace_rename]
      refine renameResult_bind fun x => ?_
      rw [Prod.map_fst, Prod.map_snd, ih]
      exact renameResult_map fun out => List.map_append.symm

/-- The renamed block is lowered to the renamed code, or refused with the renamed
error. -/
theorem lowerBlock_eq_rename (t : Target) (block : List Instruction) :
    (t.rename p).lowerBlock (block.map (Instruction.rename p)) =
      renameResult p (LoweredBlock.rename p) (t.lowerBlock block) := by
  have hlen : (block.map (Instruction.rename p)).length = block.length := List.length_map _
  rcases Nat.lt_or_ge t.maxBlockLen.toNat block.length with h | h
  · rw [lowerBlock_of_lt h, lowerBlock_of_lt (by rwa [maxBlockLen_rename, hlen]),
      maxBlockLen_rename, hlen]
    rfl
  · have hrun := lowerFrom_rename (p := p) (t := t) 0 .start (block.zip (demand block))
    rw [lowerBlock_of_le h, lowerBlock_of_le (by rwa [maxBlockLen_rename, hlen]), demand_rename,
      List.zip_map_left]
    refine (congrArg (Except.map LoweredBlock.mk) hrun).trans ?_
    exact renameResult_map fun _ => rfl

/-! ## The scratch register -/

/-- The target with a register set aside for lowering. -/
def withScratch (t : Target) (r : Reg) : Target :=
  { t with scratch := some r }

theorem rename_swap {s : Reg} (h : t.scratch = some s) (s' : Reg) :
    t.rename (Equiv.swap s s') = t.withScratch s' := by
  have hscratch : t.scratch.map (Equiv.swap s s') = some s' := by
    rw [h, Option.map_some, Equiv.swap_apply_left]
  rw [rename, withScratch]
  simp only [hscratch]

theorem map_rename_swap {s s' : Reg}
    (h : ∀ ins ∈ block, ins.uses s = false ∧ ins.uses s' = false) :
    block.map (Instruction.rename (Equiv.swap s s')) = block := by
  refine (List.map_congr_left fun ins hins => ?_).trans (List.map_id block)
  obtain ⟨hs, hs'⟩ := h ins hins
  refine Instruction.rename_eq_self fun r hr => Equiv.swap_apply_of_ne_of_ne ?_ ?_
  · rintro rfl
    exact Bool.noConfusion (hs.symm.trans hr)
  · rintro rfl
    exact Bool.noConfusion (hs'.symm.trans hr)

/-- A block with its registers renamed is lowered for the target with its scratch
register renamed to the same code with its registers renamed, each item with its origin
and its mark. It is refused exactly if the block is, with an error of the same class,
which names the same places. To set another register aside that the block does not use
changes nothing but the name of that register. -/
theorem lowerBlock_rename (p : Equiv.Perm Reg) (t : Target) (block : List Instruction) :
    (t.rename p).lowerBlock (block.map (Instruction.rename p)) =
        renameResult p (LoweredBlock.rename p) (t.lowerBlock block) ∧
      (∀ out, (t.rename p).lowerBlock (block.map (Instruction.rename p)) = .ok (out.rename p) ↔
        t.lowerBlock block = .ok out) ∧
      (∀ heading,
        (∃ e, (t.rename p).lowerBlock (block.map (Instruction.rename p)) = .error e ∧
            e.heading = heading) ↔
          ∃ e, t.lowerBlock block = .error e ∧ e.heading = heading) ∧
      ∀ s s', t.scratch = some s → (∀ ins ∈ block, ins.uses s = false ∧ ins.uses s' = false) →
        (t.withScratch s').lowerBlock block =
          renameResult (Equiv.swap s s') (LoweredBlock.rename (Equiv.swap s s'))
            (t.lowerBlock block) := by
  have heq := lowerBlock_eq_rename (p := p) t block
  have hinj : Function.Injective (LoweredBlock.rename p) :=
    Function.LeftInverse.injective LoweredBlock.rename_symm
  refine ⟨heq, ?_, ?_, ?_⟩
  · intro out
    rw [heq, renameResult_eq_ok_iff hinj]
  · intro heading
    rw [heq, exists_renameResult_iff]
  · intro s s' hs hunused
    have hswap := lowerBlock_eq_rename (p := Equiv.swap s s') t block
    rwa [map_rename_swap hunused, rename_swap hs] at hswap

/-- A quotient that goes through the scratch register, for a target that sets `R14`
aside in the place of `R15`. -/
theorem lowerBlock_rename_other_scratch :
    let t := amd64WithScratch ⟨15⟩
    let place : Operand := .mem ⟨some ⟨2⟩, none, 8⟩
    let block : List Instruction := [.ternary .div3 place (.reg ⟨3⟩) place]
    let code (s : Reg) : LoweredBlock :=
      ⟨[⟨.binary .mov (.reg s) (.reg ⟨3⟩), false, 0⟩, ⟨.binary .div (.reg s) place, false, 0⟩,
        ⟨.binary .mov place (.reg s), false, 0⟩]⟩
    t.lowerBlock block = .ok (code ⟨15⟩) ∧
      (t.withScratch ⟨14⟩).lowerBlock block = .ok (code ⟨14⟩) := by
  intro t place block code
  have hcode : t.lowerBlock block = .ok (code ⟨15⟩) := rfl
  have hunused : ∀ ins ∈ block, ins.uses ⟨15⟩ = false ∧ ins.uses ⟨14⟩ = false := by decide
  obtain ⟨_, _, _, hscratch⟩ := lowerBlock_rename (Equiv.refl Reg) t block
  refine ⟨hcode, ?_⟩
  rw [hscratch ⟨15⟩ ⟨14⟩ rfl hunused, hcode]
  rfl

end Target

end TwoAddress
