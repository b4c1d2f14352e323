/-
# `Lowering` — lowering a block

The instructions of a block are lowered one by one, and the groups that come
out are put one after the other. What ties them together is the carry: every
emitted instruction passes the `Carry.Tracker`, and the block is refused as a
whole if a carry that is still needed would be lost.

Within a group the work of a link is done by one instruction, the last one that
has the link's opcode. The others only prepare its operands or move its result,
and the tracker treats them as it treats any instruction.
-/
import TwoAddress.Block
import TwoAddress.Carry.Demand
import TwoAddress.Emission
import TwoAddress.Traced

namespace TwoAddress

namespace Carry

/-- A group in which the last instruction that does the link's work is marked
with the link. -/
def markLink (link : Link) : List Instruction → List (Instruction × Option Link)
  | [] => []
  | g :: rest =>
      if link.worksIn g ∧ rest.any link.worksIn = false then
        (g, some link) :: rest.map (·, none)
      else (g, none) :: markLink link rest

/-- The group of `ins` with its link marked, if it is one. -/
def marked (ins : Instruction) (group : List Instruction) : List (Instruction × Option Link) :=
  match Link.of? ins with
  | some link => markLink link group
  | none => group.map (·, none)

/-- Passes an instruction through the tracker and reports a break. -/
def Tracker.pass (tracker : Tracker) (origin : Nat) (ins : Instruction) (link : Option Link)
    (needed : Bool) : Traced Tracker :=
  match tracker.observe origin ins link needed with
  | .ok next => pure next
  | .error b => ⟨[.chainBroken b], .error (.carry b)⟩

/-- Passes a group through the tracker. -/
def Tracker.passGroup (origin : Nat) (needed : Bool) :
    Tracker → List (Instruction × Option Link) → Traced (Tracker × List Lowered)
  | tracker, [] => pure (tracker, [])
  | tracker, (ins, link) :: rest => do
      let tracker ← tracker.pass origin ins link needed
      Traced.note (.emitted origin ins)
      let (tracker, out) ← tracker.passGroup origin needed rest
      return (tracker, ⟨ins, ins.preservesCarry, origin⟩ :: out)

/-- Ends a block and reports a carry left over. -/
def Tracker.close (tracker : Tracker) : Traced Unit :=
  match tracker.finish with
  | .ok () => pure ()
  | .error b => ⟨[.chainBroken b], .error (.carry b)⟩

end Carry

namespace Target

/-- Lowers one instruction as `Target.lower` does, and reports its plan. -/
def lowerTraced (t : Target) (ins : Instruction) : Traced (List Instruction) := do
  let plan ← Traced.ofExcept (t.plan ins)
  Traced.note (.planned ins plan)
  Traced.ofExcept (t.emit ins plan)

@[simp] theorem outcome_lowerTraced (t : Target) (ins : Instruction) :
    (t.lowerTraced ins).outcome = t.lower ins := by
  simp only [lowerTraced, lower, Traced.outcome_bind, Traced.outcome_ofExcept,
    Traced.outcome_note]
  rfl

/-- Lowers instructions, each with whether a carry is needed after it, from the
place `origin` of a block on. -/
def lowerFrom (t : Target) (origin : Nat) (tracker : Carry.Tracker) :
    List (Instruction × Bool) → Traced (List Lowered)
  | [] => do
      tracker.close
      return []
  | (ins, needed) :: rest => do
      let group ← t.lowerTraced ins
      let (tracker, out) ← tracker.passGroup origin needed (Carry.marked ins group)
      return out ++ (← t.lowerFrom (origin + 1) tracker rest)

/-- Lowers a block and reports how. -/
def lowerWhole (t : Target) (block : List Instruction) : Traced LoweredBlock := do
  Traced.ofExcept (t.checkLength block.length)
  let out ← t.lowerFrom 0 .start (block.zip (Carry.demand block))
  Traced.note (.blockLowered block.length out.length)
  return ⟨out⟩

/-- Lowers a block, and reports how and whether it was refused. -/
def lowerBlockTraced (t : Target) (block : List Instruction) : Traced LoweredBlock :=
  (t.lowerWhole block).onFailure .blockRefused

def lowerBlock (t : Target) (block : List Instruction) : Except Error LoweredBlock :=
  (t.lowerBlockTraced block).outcome

end Target

end TwoAddress
