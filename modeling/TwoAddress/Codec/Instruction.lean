/-
# `Codec.Instruction` — instructions as JSON

An operand and an instruction are written as an object of one member, named for
the kind: `{"Reg": 1}`, `{"Nullary": {"op": 57}}`. Opcodes and registers are
their numbers; an opcode's space follows from the kind of the instruction.
-/
import TwoAddress.Instruction
import TwoAddress.Json.Record

namespace TwoAddress

open Json

def Reg.toJson (r : Reg) : Json := .int r.index.toNat

def Reg.ofJson? (j : Json) : Option Reg :=
  (Json.uint8? j).map Reg.mk

def Opcode.toJson {tier : Tier} (op : Opcode tier) : Json := .int op.code.toNat

def Opcode.ofJson? {tier : Tier} (j : Json) : Option (Opcode tier) :=
  (Json.uint8? j).map Opcode.mk

def ScaledReg.toJson (x : ScaledReg) : Json :=
  .arr [x.reg.toJson, .int x.scale.toNat]

def ScaledReg.ofJson? : Json → Option ScaledReg
  | .arr [r, s] => do return ⟨← Reg.ofJson? r, ← Json.uint8? s⟩
  | _ => none

namespace Address

def toJson (a : Address) : Json :=
  .obj [("base", ofOption Reg.toJson a.base), ("index", ofOption ScaledReg.toJson a.index),
    ("disp", .int a.disp.toInt)]

def ofJson? (j : Json) : Option Address :=
  match fields? ["base", "index", "disp"] j with
  | some [base, index, disp] => do
      return ⟨← optional? Reg.ofJson? base, ← optional? ScaledReg.ofJson? index,
        ← given? Json.int32? disp⟩
  | _ => none

end Address

namespace Operand

def toJson : Operand → Json
  | reg r => .obj [("Reg", r.toJson)]
  | mem a => .obj [("Mem", a.toJson)]
  | imm v => .obj [("Imm", .int v.toInt)]

def ofJson? (j : Json) : Option Operand :=
  match variant? j with
  | some ("Reg", v) => (Reg.ofJson? v).map reg
  | some ("Mem", v) => (Address.ofJson? v).map mem
  | some ("Imm", v) => (Json.int64? v).map imm
  | _ => none

end Operand

namespace Instruction

/-- The kind of an instruction and the names of its operands. -/
def shape : Tier → String × List String
  | .nullary => ("Nullary", [])
  | .unary => ("Unary", ["dst"])
  | .binary => ("Binary", ["dst", "src"])
  | .ternary => ("Ternary", ["dst", "a", "b"])
  | .quaternary => ("Quaternary", ["dst", "base", "index", "scale"])

def toJson (ins : Instruction) : Json :=
  let (kind, names) := shape ins.tier
  let operands := names.zip (ins.operands.map Operand.toJson)
  .obj [(kind, .obj (("op", ins.opcode.toJson) :: operands))]

/-- Reads the opcode and the operands of an instruction of a tier. -/
def ofFields? (tier : Tier) (j : Json) : Option Instruction :=
  match fields? ("op" :: (shape tier).2) j with
  | some (op :: operands) => do
      let op ← given? Opcode.ofJson? op
      ofOperands? tier op (← operands.mapM (given? Operand.ofJson?))
  | _ => none

def ofJson? (j : Json) : Option Instruction := do
  let (kind, v) ← variant? j
  let tier ← Tier.all.find? fun tier => (shape tier).1 == kind
  ofFields? tier v

end Instruction

end TwoAddress
