/-
# `Assembly.Printer` — instructions as text

`LEA R2, [R0+R1*4-16]`: the mnemonic, a blank, and the operands with a comma
and a blank between them. In an address the fields stand in the order base,
index, displacement; a scale of one and a displacement of zero are left out,
and an address without fields is written `[0]`.
-/
import TwoAddress.Instruction
import TwoAddress.Text.Numeral

namespace TwoAddress

def Reg.render (r : Reg) : List Char :=
  'R' :: Numeral.ofNat r.index.toNat

def ScaledReg.render (x : ScaledReg) : List Char :=
  x.reg.render ++ if x.scale = 1 then [] else '*' :: Numeral.ofNat x.scale.toNat

namespace Address

/-- The register fields, with a plus sign between them. -/
def renderRegs (a : Address) : List Char :=
  match a.base, a.index with
  | none, none => []
  | some b, none => b.render
  | none, some x => x.render
  | some b, some x => b.render ++ '+' :: x.render

/-- The displacement. After another field it is left out if it is zero and has
its sign before it in any case. -/
def renderDisp (a : Address) : List Char :=
  let d := a.disp.toInt
  if a.base.isNone && a.index.isNone then Numeral.ofInt d
  else if d = 0 then []
  else if d < 0 then Numeral.ofInt d
  else '+' :: Numeral.ofInt d

def render (a : Address) : List Char :=
  '[' :: a.renderRegs ++ a.renderDisp ++ [']']

end Address

def Operand.render : Operand → List Char
  | reg r => r.render
  | mem a => a.render
  | imm v => Numeral.ofInt v.toInt

/-- The operands, with a comma and a blank between them. -/
def Operand.renderAll : List Operand → List Char
  | [] => []
  | [o] => o.render
  | o :: rest => o.render ++ ',' :: ' ' :: renderAll rest

def Opcode.render {tier : Tier} (op : Opcode tier) : List Char :=
  op.toString.toList

def Instruction.render (ins : Instruction) : List Char :=
  match ins.operands with
  | [] => ins.opcode.render
  | os => ins.opcode.render ++ ' ' :: Operand.renderAll os

instance : ToString Reg := ⟨fun r => String.ofList r.render⟩
instance : ToString Address := ⟨fun a => String.ofList a.render⟩
instance : ToString Operand := ⟨fun o => String.ofList o.render⟩
instance : ToString Instruction := ⟨fun ins => String.ofList ins.render⟩

end TwoAddress
