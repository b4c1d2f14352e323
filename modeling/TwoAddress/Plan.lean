/-
# `Plan` — how one instruction is to be lowered

Lowering an instruction has two stages. The first, here, looks at the
instruction and the target and settles on a plan; it refuses what the target
cannot express at all. The second (`Emission`) writes the plan out, and may
find that it needs a scratch register which the target does not have.

The hard case is `dst := a op b` on a target that only has `dst := dst op src`.
Copying `a` to `dst` first is right only if `b` still has its value after that.
It may not, in three ways: `b` is `dst`; `b` is addressed through the register
`dst`; or both are memory and might overlap. `Target.strategy` takes each of
them by the cheapest sound way around.
-/
import TwoAddress.Error

namespace TwoAddress

/-- Whether the value of `o` is computed from the register that `dst` is. -/
def Operand.dependsOn (o dst : Operand) : Bool :=
  dst.reg?.any o.uses

/-- Whether writing `dst` may change the value of `o`. Two memory operands may
name the same place. -/
def Operand.mayChangeWith (o dst : Operand) : Bool :=
  o.dependsOn dst || (dst.isMem && o.isMem)

/-- Why a result is computed in the scratch register. -/
inductive ScratchReason where
  | destinationIsSecond
  | secondThroughDestination
  | secondMayOverlap
  | memoryOperands
deriving DecidableEq, Repr

/-- A way of lowering an instruction, with what it needs to be written out. -/
inductive Plan where
  /-- The instruction is of the target already. -/
  | keep
  /-- Compute `dst := dst op src`. -/
  | operate (op : Opcode .binary) (dst src : Operand)
  /-- Compute `dst := op dst`. -/
  | unaryInPlace (op : Opcode .unary) (dst : Operand)
  /-- Copy `dst := src`, then compute `dst := op dst`. -/
  | moveUnary (op : Opcode .unary) (dst src : Operand)
  /-- Compute `dst := dst op b`, where `dst` is the first source too. -/
  | reuse (op : Opcode .binary) (dst b : Operand)
  /-- A sum computed as an address. -/
  | fuse (dst : Reg) (a : Address)
  /-- Compute `dst := dst op a`, where `dst` is the second source too. -/
  | commute (op : Opcode .binary) (dst a : Operand)
  /-- Negate `dst` and add `a`, for `dst := a - dst`. -/
  | negateAdd (dst a : Operand)
  /-- Copy `dst := b`, then compute `dst := dst op a`. -/
  | commuteMove (op : Opcode .binary) (dst a b : Operand)
  /-- Compute `a op b` in the scratch register, then copy it to `dst`. -/
  | viaScratch (why : ScratchReason) (op : Opcode .binary) (dst a b : Operand)
  /-- Copy `dst := a`, then compute `dst := dst op b`. -/
  | moveOperate (op : Opcode .binary) (dst a b : Operand)
  /-- A base and a scaled index computed as an address. -/
  | loadAddress (op : Opcode .binary) (dst : Reg) (a : Address)
deriving DecidableEq, Repr

/-- The words in which a plan is logged, for plans that are. -/
def Plan.note? : Plan → Option String
  | keep | operate .. | loadAddress .. => none
  | unaryInPlace op _ | moveUnary op _ _ => some s!"lowering to one-operand {op}"
  | reuse .. => some "destructive reuse"
  | fuse .. => some "fused into LEA"
  | commute .. => some "commuted onto aliased source"
  | negateAdd .. => some "negate then add"
  | commuteMove .. => some "second source addressed through destination, commuted"
  | viaScratch why .. =>
      some <| match why with
        | .destinationIsSecond => "destination aliases second source, via scratch"
        | .secondThroughDestination =>
            "second source addressed through destination, via scratch"
        | .secondMayOverlap => "second source may overlap destination, via scratch"
        | .memoryOperands => "memory operands, via scratch"
  | moveOperate .. => some "move then operate"

/-! ## Sums as addresses -/

/-- The address whose value is `a op b`, for a sum or difference that has
one. -/
def sumAddress? (op : Opcode .binary) : (a b : Operand) → Option Address
  | .reg x, .reg y =>
      if op = .add then some ((Address.ofReg x).withIndex y 1) else none
  | .reg x, .imm k =>
      if op = .add then (int32? k.toInt).map (Address.ofReg x).withDisp
      else if op = .sub then (int32? (-k.toInt)).map (Address.ofReg x).withDisp
      else none
  | .imm k, .reg x =>
      if op = .add then (int32? k.toInt).map (Address.ofReg x).withDisp else none
  | _, _ => none

namespace Target

/-- The register and the address that make an address computation of
`dst := a op b`, where the target allows it. -/
def fusion? (t : Target) (op : Opcode .binary) (dst a b : Operand) : Option (Reg × Address) :=
  match t.leaFusion, t.addressing, dst, sumAddress? op a b with
  | true, some mode, .reg d, some sum => if mode.encodes sum then some (d, sum) else none
  | _, _, _, _ => none

/-! ## Three operands -/

/-- The plan for `dst := a op b`. -/
def strategy (t : Target) (op : Opcode .binary) (dst a b : Operand) : Plan :=
  if dst = a then .reuse op dst b
  else
    match t.fusion? op dst a b with
    | some (d, sum) => .fuse d sum
    | none =>
        if dst = b then
          if op.isCommutative then .commute op dst a
          else if op = .sub ∧ a.mayChangeWith dst = false then .negateAdd dst a
          else .viaScratch .destinationIsSecond op dst a b
        else if b.dependsOn dst then
          if op.isCommutative ∧ a.mayChangeWith dst = false then .commuteMove op dst a b
          else .viaScratch .secondThroughDestination op dst a b
        else if dst.isMem ∧ b.isMem then .viaScratch .secondMayOverlap op dst a b
        else if t.memoryToMemory = false ∧ dst.isMem ∧ a.isMem then
          .viaScratch .memoryOperands op dst a b
        else .moveOperate op dst a b

/-! ## Two operands -/

def planAddress (t : Target) (ins : Instruction) (dst src : Operand) : Except Error Plan :=
  match t.addressing, src, dst with
  | none, _, _ => .error (.unsupportedOpcode ins)
  | some mode, .mem a, .reg _ => do mode.check a; return .keep
  | some _, .mem _, _ => .error (.operand ins .leaDestinationNotRegister)
  | some _, _, _ => .error (.operand ins .leaSourceNotMemory)

/-- The plan for a declared two-operand operation with a proper destination. -/
def planBinary (t : Target) (ins : Instruction) (op : Opcode .binary) (dst src : Operand) :
    Except Error Plan :=
  if op = .lea then t.planAddress ins dst src
  else
    match op.toUnary? with
    | some unary =>
        .ok (if dst = src then .unaryInPlace unary dst else .moveUnary unary dst src)
    | none => .ok (.operate op dst src)

/-! ## Four operands -/

/-- The scale that an operand gives, if the target encodes it. -/
def scaleOf (mode : AddressingMode) (ins : Instruction) : Operand → Except Error UInt8
  | .imm s =>
      match (uint8? s.toInt).filter mode.supportsScale with
      | some scale => .ok scale
      | none => .error (.address ins (.scale s))
  | o => .error (.operand ins (.scaleNotImmediate o))

/-- The word of a displacement. -/
def dispOf (ins : Instruction) (disp : Int) : Except Error Int32 :=
  match int32? disp with
  | some d => .ok d
  | none => .error (.address ins .dispTooWide)

/-- The address that an operand gives as the base of another. -/
def baseOf (ins : Instruction) : Operand → Except Error Address
  | .reg r => .ok (.ofReg r)
  | .mem a => if a.index.isNone then .ok a else .error (.address ins (.baseIndexed a))
  | .imm k => do return .ofDisp (← dispOf ins k.toInt)

/-- The base with the scaled index added, which a number is at once. -/
def addIndex (ins : Instruction) (base : Address) (scale : UInt8) :
    (index : Operand) → Except Error Address
  | .reg r => .ok (base.withIndex r scale)
  | .imm k => do
      return base.withDisp (← dispOf ins (k.toInt * scale.toNat + base.disp.toInt))
  | .mem a => .error (.operand ins (.indexInMemory a))

/-- The plan for `dst := base + index * scale`. -/
def planScaled (mode : AddressingMode) (ins : Instruction) (op : Opcode .binary)
    (dst base index scale : Operand) : Except Error Plan :=
  match dst with
  | .imm _ => .error (.immutableDestination ins)
  | .mem _ => .error (.operand ins .leaDestinationNotRegister)
  | .reg d => do
      let scale ← scaleOf mode ins scale
      let sum ← addIndex ins (← baseOf ins base) scale index
      mode.check sum
      return .loadAddress op d sum

/-! ## Any instruction -/

def plan (t : Target) (ins : Instruction) : Except Error Plan :=
  match ins with
  | .nullary op =>
      if op.isDeclared then .ok .keep else .error (.unsupportedOpcode ins)
  | .unary op dst =>
      if !op.isDeclared then .error (.unsupportedOpcode ins)
      else if dst.isImm then .error (.immutableDestination ins)
      else .ok .keep
  | .binary op dst src =>
      if !op.isDeclared then .error (.unsupportedOpcode ins)
      else if dst.isImm then .error (.immutableDestination ins)
      else t.planBinary ins op dst src
  | .ternary op dst a b =>
      match op.ternaryToBinary? with
      | none => .error (.unsupportedOpcode ins)
      | some op =>
          if dst.isImm then .error (.immutableDestination ins)
          else .ok (t.strategy op dst a b)
  | .quaternary op dst base index scale =>
      match op.quaternaryToBinary?, t.addressing with
      | some op, some mode => planScaled mode ins op dst base index scale
      | _, _ => .error (.unsupportedOpcode ins)

end Target

end TwoAddress
