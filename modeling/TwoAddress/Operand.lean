/-
# `Operand` — registers, addresses and immediates

An address is the sum of up to three fields: a base register, an index
register times a scale, and a displacement. All three may be missing, and then
it is the address zero. Whether a target can encode it is not decided here but
by the target's `AddressingMode`.
-/

namespace TwoAddress

/-- An integer register. -/
structure Reg where
  index : UInt8
deriving DecidableEq, Repr

/-- A register multiplied by a constant. -/
structure ScaledReg where
  reg : Reg
  scale : UInt8
deriving DecidableEq, Repr

/-- A memory reference: `base + index * scale + disp`. -/
structure Address where
  base : Option Reg
  index : Option ScaledReg
  disp : Int32
deriving DecidableEq, Repr

namespace Address

/-- The address zero, with every field missing. -/
def zero : Address := ⟨none, none, 0⟩

def ofReg (r : Reg) : Address := { zero with base := some r }

def ofDisp (d : Int32) : Address := { zero with disp := d }

/-- The address with its index replaced. -/
def withIndex (a : Address) (r : Reg) (scale : UInt8) : Address :=
  { a with index := some ⟨r, scale⟩ }

/-- The address with its displacement replaced. -/
def withDisp (a : Address) (d : Int32) : Address := { a with disp := d }

/-- The number of fields present. A zero displacement takes none. -/
def fields (a : Address) : Nat :=
  a.base.toList.length + a.index.toList.length + if a.disp = 0 then 0 else 1

/-- Whether the address is computed from the register. -/
def uses (a : Address) (r : Reg) : Bool :=
  a.base == some r || a.index.any (·.reg == r)

theorem fields_le_three (a : Address) : a.fields ≤ 3 := by
  rcases a with ⟨_ | _, _ | _, d⟩ <;> simp only [fields] <;> split <;> simp

end Address

/-- What an instruction works on. -/
inductive Operand where
  | reg (r : Reg)
  | mem (a : Address)
  | imm (value : Int64)
deriving DecidableEq, Repr

namespace Operand

def isMem : Operand → Bool
  | mem _ => true
  | _ => false

def isImm : Operand → Bool
  | imm _ => true
  | _ => false

def reg? : Operand → Option Reg
  | reg r => some r
  | _ => none

/-- Whether the register is read or written through this operand. -/
def uses : Operand → Reg → Bool
  | reg r, s => r == s
  | mem a, s => a.uses s
  | imm _, _ => false

end Operand

end TwoAddress
