/-
# `Block` — lowered code

Each instruction of lowered code knows the input instruction that it comes from
and whether the carry is sure to survive it.
-/
import TwoAddress.Assembly.Printer
import TwoAddress.Text.Lines

namespace TwoAddress

/-- An instruction of lowered code. -/
structure Lowered where
  instruction : Instruction
  /-- Whether the encoder has to leave the carry alone here. -/
  flagPreserving : Bool
  /-- The place in the input of the instruction that this one comes from. -/
  origin : Nat
deriving DecidableEq, Repr

/-- Lowered code, in the order in which it is executed. -/
structure LoweredBlock where
  items : List Lowered
deriving DecidableEq, Repr

namespace LoweredBlock

def empty : LoweredBlock := ⟨[]⟩

def push (b : LoweredBlock) (x : Lowered) : LoweredBlock :=
  ⟨b.items ++ [x]⟩

def length (b : LoweredBlock) : Nat :=
  b.items.length

def isEmpty (b : LoweredBlock) : Bool :=
  b.items.isEmpty

def instructions (b : LoweredBlock) : List Instruction :=
  b.items.map (·.instruction)

def origins (b : LoweredBlock) : List Nat :=
  b.items.map (·.origin)

/-- The instructions as text, each with a line end after it. -/
def render (b : LoweredBlock) : List Char :=
  Text.unlines (b.instructions.map Instruction.render)

end LoweredBlock

end TwoAddress
