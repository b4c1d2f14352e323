/-
# `Carry.Link` — how instructions hand a carry on

A chain of carries starts at an `ADD` or a `SUB` and goes on through `ADC`s or
`SBB`s, each of which reads the carry that the link before it left. These are
the links. Of the three-operand instructions `ADC3` and `SBB3` are links, since
they read a carry; `ADD3` and `SUB3` are plain sums and may stand inside a
chain, provided they can be computed without touching the carry.
-/
import TwoAddress.Instruction

namespace TwoAddress.Carry

/-- Carries of sums and borrows of differences do not mix. -/
inductive Family where
  | add
  | sub
deriving DecidableEq, Repr

/-- Whether a link only leaves a carry, or reads one first. -/
inductive Role where
  | produce
  | consume
deriving DecidableEq, Repr

/-- The part that an instruction plays in a chain. -/
structure Link where
  role : Role
  family : Family
deriving DecidableEq, Repr

namespace Link

def consumes (l : Link) : Bool :=
  l.role == .consume

/-- The two-operand opcode that does the link's work. -/
def opcode : Link → Opcode .binary
  | ⟨.produce, .add⟩ => .add
  | ⟨.produce, .sub⟩ => .sub
  | ⟨.consume, .add⟩ => .adc
  | ⟨.consume, .sub⟩ => .sbb

def all : List Link :=
  [⟨.produce, .add⟩, ⟨.produce, .sub⟩, ⟨.consume, .add⟩, ⟨.consume, .sub⟩]

/-- The link whose work a two-operand opcode does. -/
def ofOpcode? (op : Opcode .binary) : Option Link :=
  all.find? (·.opcode == op)

/-- The link that an instruction is. -/
def of? : Instruction → Option Link
  | .binary op _ _ => ofOpcode? op
  | .ternary op _ _ _ => (op.ternaryToBinary?.bind ofOpcode?).filter (·.consumes)
  | _ => none

/-- Whether an instruction does the link's work. -/
def worksIn (l : Link) : Instruction → Bool
  | .binary op _ _ => op == l.opcode
  | _ => false

theorem ofOpcode?_eq_some_iff {op : Opcode .binary} {l : Link} :
    ofOpcode? op = some l ↔ l.opcode = op := by
  constructor
  · intro h
    simpa using List.find?_some h
  · rintro rfl
    rcases l with ⟨_ | _, _ | _⟩ <;> decide

end Link

end TwoAddress.Carry
