/-
# `Instruction` — instructions of zero to four operands

The constructor fixes both the code space of the opcode and the number of
operands, so an opcode never meets a wrong number of operands. Instructions of
three and four operands are virtual: they name a destination apart from their
sources, and lowering turns them into instructions of at most two.
-/
import TwoAddress.Opcode
import TwoAddress.Operand

namespace TwoAddress

/-- An instruction, virtual or of the target. -/
inductive Instruction where
  | nullary (op : Opcode .nullary)
  /-- The destination is the source as well. -/
  | unary (op : Opcode .unary) (dst : Operand)
  /-- Computes `dst := dst op src`. -/
  | binary (op : Opcode .binary) (dst src : Operand)
  /-- Computes `dst := a op b`. -/
  | ternary (op : Opcode .ternary) (dst a b : Operand)
  /-- Computes `dst := base + index * scale`, where a memory operand as base
  stands for its address. -/
  | quaternary (op : Opcode .quaternary) (dst base index scale : Operand)
deriving DecidableEq, Repr

namespace Instruction

def tier : Instruction → Tier
  | nullary _ => .nullary
  | unary .. => .unary
  | binary .. => .binary
  | ternary .. => .ternary
  | quaternary .. => .quaternary

def opcode : (ins : Instruction) → Opcode ins.tier
  | nullary op => op
  | unary op _ => op
  | binary op _ _ => op
  | ternary op _ _ _ => op
  | quaternary op _ _ _ _ => op

/-- The operand written to. -/
def dst? : Instruction → Option Operand
  | nullary _ => none
  | unary _ dst | binary _ dst _ | ternary _ dst _ _ | quaternary _ dst _ _ _ =>
      some dst

/-- The operands only read from. -/
def sources : Instruction → List Operand
  | nullary _ | unary .. => []
  | binary _ _ src => [src]
  | ternary _ _ a b => [a, b]
  | quaternary _ _ base index scale => [base, index, scale]

/-- All operands, in the order in which they are written. -/
def operands (ins : Instruction) : List Operand :=
  ins.dst?.toList ++ ins.sources

/-- The instruction of an opcode and its operands, if their number is right. -/
def ofOperands? : (tier : Tier) → Opcode tier → List Operand → Option Instruction
  | .nullary, op, [] => some (nullary op)
  | .unary, op, [dst] => some (unary op dst)
  | .binary, op, [dst, src] => some (binary op dst src)
  | .ternary, op, [dst, a, b] => some (ternary op dst a b)
  | .quaternary, op, [dst, base, index, scale] =>
      some (quaternary op dst base index scale)
  | _, _, _ => none

def uses (ins : Instruction) (r : Reg) : Bool :=
  ins.operands.any (·.uses r)

/-- Whether the instruction is sure to leave the carry alone. -/
def preservesCarry (ins : Instruction) : Bool :=
  ins.opcode.preservesCarry

@[simp] theorem length_operands (ins : Instruction) :
    ins.operands.length = ins.tier.arity := by
  cases ins <;> rfl

section Operands

variable {o dst src a b base index scale : Operand}

@[simp] theorem mem_operands_unary {op : Opcode .unary} :
    o ∈ (unary op dst).operands ↔ o = dst := List.mem_singleton

@[simp] theorem mem_operands_binary {op : Opcode .binary} :
    o ∈ (binary op dst src).operands ↔ o = dst ∨ o = src := by
  simp [operands, dst?, sources]

@[simp] theorem mem_operands_ternary {op : Opcode .ternary} :
    o ∈ (ternary op dst a b).operands ↔ o = dst ∨ o = a ∨ o = b := by
  simp [operands, dst?, sources]

@[simp] theorem mem_operands_quaternary {op : Opcode .quaternary} :
    o ∈ (quaternary op dst base index scale).operands ↔
      o = dst ∨ o = base ∨ o = index ∨ o = scale := by
  simp [operands, dst?, sources]

end Operands

theorem ofOperands?_operands (ins : Instruction) :
    ofOperands? ins.tier ins.opcode ins.operands = some ins := by
  cases ins <;> rfl

theorem ofOperands?_isSome {tier : Tier} (op : Opcode tier) (os : List Operand) :
    (ofOperands? tier op os).isSome ↔ os.length = tier.arity := by
  match tier, os with
  | .nullary, [] | .unary, [_] | .binary, [_, _] | .ternary, [_, _, _]
  | .quaternary, [_, _, _, _] => simp [ofOperands?, Tier.arity]
  | .nullary, _ :: _ | .unary, [] | .unary, _ :: _ :: _ | .binary, [] | .binary, [_]
  | .binary, _ :: _ :: _ :: _ | .ternary, [] | .ternary, [_] | .ternary, [_, _]
  | .ternary, _ :: _ :: _ :: _ :: _ | .quaternary, [] | .quaternary, [_]
  | .quaternary, [_, _] | .quaternary, [_, _, _]
  | .quaternary, _ :: _ :: _ :: _ :: _ :: _ => simp [ofOperands?, Tier.arity]

end Instruction

end TwoAddress
