/-
# `Carry.Demand` — which carries are still needed

A carry is needed for as long as the next link ahead is one that reads it. So
whether it is needed after an instruction depends on the instructions behind it
alone, and one pass from the end of a block answers for every place.
-/
import TwoAddress.Carry.Link

namespace TwoAddress.Carry

/-- Whether a carry is needed before the instructions and, for each of them,
whether one is needed after it. -/
def demandScan : List Instruction → Bool × List Bool
  | [] => (false, [])
  | ins :: rest =>
      let (ahead, after) := demandScan rest
      let needed :=
        match Link.of? ins with
        | some link => link.consumes
        | none => ahead
      (needed, ahead :: after)

/-- Whether the instructions need a carry from before them: the first link
among them reads one. -/
def demanded (block : List Instruction) : Bool :=
  (demandScan block).1

/-- For each instruction of a block, whether a carry is needed after it. -/
def demand (block : List Instruction) : List Bool :=
  (demandScan block).2

@[simp] theorem demanded_nil : demanded [] = false := rfl

theorem demanded_cons (ins : Instruction) (rest : List Instruction) :
    demanded (ins :: rest) =
      match Link.of? ins with
      | some link => link.consumes
      | none => demanded rest := rfl

@[simp] theorem demand_nil : demand [] = [] := rfl

@[simp] theorem demand_cons (ins : Instruction) (rest : List Instruction) :
    demand (ins :: rest) = demanded rest :: demand rest := rfl

@[simp] theorem length_demand (block : List Instruction) :
    (demand block).length = block.length := by
  induction block with
  | nil => rfl
  | cons ins rest ih => simp [ih]

end TwoAddress.Carry
