/-
# `Emission` — writing a plan out

A plan becomes a group of one to three instructions of the target. What is left
to settle here is where the scratch register comes in: for an operation on two
memory operands, where the target has no such form, and for the plans that
compute in it. The scratch register is refused to an instruction that uses it.
-/
import TwoAddress.Plan

namespace TwoAddress

namespace Target

/-- The register that may be overwritten while `ins` is computed. -/
def scratchFor (t : Target) (ins : Instruction) : Except Error Reg :=
  match t.scratch with
  | none => .error (.operand ins (.noScratch t.name))
  | some s => if ins.uses s then .error (.operand ins (.scratchInUse s)) else .ok s

/-- Computes `dst := dst op src`, by way of the scratch register if the target
takes no two memory operands. -/
def operation (t : Target) (ins : Instruction) (op : Opcode .binary) (dst src : Operand) :
    Except Error (List Instruction) :=
  if t.memoryToMemory = false ∧ dst.isMem ∧ src.isMem then do
    let s ← t.scratchFor ins
    return [.binary .mov (.reg s) src, .binary op dst (.reg s)]
  else .ok [.binary op dst src]

/-- The instructions of a plan for `ins`. -/
def emit (t : Target) (ins : Instruction) : Plan → Except Error (List Instruction)
  | .keep => .ok [ins]
  | .operate op dst src => t.operation ins op dst src
  | .unaryInPlace op dst => .ok [.unary op dst]
  | .moveUnary op dst src => do return (← t.operation ins .mov dst src) ++ [.unary op dst]
  | .reuse op dst b => t.operation ins op dst b
  | .fuse dst a => .ok [.binary .lea (.reg dst) (.mem a)]
  | .commute op dst a => t.operation ins op dst a
  | .negateAdd dst a => do return .unary .neg dst :: (← t.operation ins .add dst a)
  | .commuteMove op dst a b => .ok [.binary .mov dst b, .binary op dst a]
  | .viaScratch _ op dst a b => do
      let s ← t.scratchFor ins
      return [.binary .mov (.reg s) a, .binary op (.reg s) b, .binary .mov dst (.reg s)]
  | .moveOperate op dst a b => .ok [.binary .mov dst a, .binary op dst b]
  | .loadAddress op dst a => .ok [.binary op (.reg dst) (.mem a)]

/-- The instructions of the target that do the work of `ins`. -/
def lower (t : Target) (ins : Instruction) : Except Error (List Instruction) := do
  t.emit ins (← t.plan ins)

end Target

end TwoAddress
