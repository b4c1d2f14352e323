/-
# `Error` — everything that can go wrong, and how it is reported

An `Error` is a cause with the values it is about. How it is reported has two
parts: its `Heading`, the class of error with the numbers that belong to it, and
a detail in words. The heading alone decides the label under which an error is
counted, and whether it points at lowering rather than at the input.
-/
import TwoAddress.Assembly.Listing
import TwoAddress.Carry.Tracker
import TwoAddress.Opcode.Tables
import TwoAddress.Target

namespace TwoAddress

/-! ## Headings -/

/-- A class of error. -/
inductive Heading where
  | unsupportedOpcode (arity code : Nat)
  | addressingOverflow
  | immutableDestination
  | carryChainBroken (producer : Option Nat) (offender : Nat)
  | invalidOperand
  | resourceLimit
  | tables
  | parse (line : Nat)
  | config
  | io
  | workerPanicked
deriving DecidableEq, Repr

namespace Heading

/-- The label under which errors of the class are counted. -/
def label : Heading → String
  | unsupportedOpcode .. => "unsupported-opcode"
  | addressingOverflow => "addressing-overflow"
  | immutableDestination => "immutable-destination"
  | carryChainBroken .. => "carry-chain-broken"
  | invalidOperand => "invalid-operand"
  | resourceLimit => "resource-limit"
  | tables => "table-error"
  | parse _ => "parse-error"
  | config => "config-error"
  | io => "io-error"
  | workerPanicked => "worker-panicked"

/-- Whether the fault lies with lowering or what called it rather than with an
instruction. -/
def isEngineFault : Heading → Bool
  | carryChainBroken .. | tables => true
  | _ => false

/-- What stands before the detail. -/
def opening : Heading → String
  | unsupportedOpcode arity code => s!"Unsupported opcode: Op{arity}({code}) in "
  | addressingOverflow => "Addressing overflow: "
  | immutableDestination => "Immutable destination: "
  | carryChainBroken (some p) offender =>
      s!"Carry chain broken: instruction #{offender} interrupts carry from #{p}: "
  | carryChainBroken none offender =>
      s!"Carry chain broken at instruction #{offender}: "
  | invalidOperand => "Invalid operand: "
  | resourceLimit => "Resource limit exceeded: "
  | tables => "Lowering table error: "
  | parse line => s!"Parse error at line {line}: "
  | config => "Configuration error: "
  | io => "I/O error: "
  | workerPanicked => "Worker panicked: "

def report (h : Heading) (detail : String) : String :=
  h.opening ++ detail

end Heading

/-! ## Causes -/

/-- Why the address of an instruction cannot be formed. -/
inductive AddressCause where
  | scale (s : Int64)
  | baseIndexed (a : Address)
  | dispTooWide
deriving DecidableEq, Repr

/-- Why an operand does not fit its instruction. -/
inductive OperandCause where
  | leaSourceNotMemory
  | leaDestinationNotRegister
  | scaleNotImmediate (o : Operand)
  | indexInMemory (a : Address)
  | noScratch (target : String)
  | scratchInUse (r : Reg)
deriving DecidableEq, Repr

/-- A cause of failure, with the values that it is about. -/
inductive Error where
  | unsupportedOpcode (ins : Instruction)
  | immutableDestination (ins : Instruction)
  | misfit (m : AddressingMode.Misfit)
  | address (ins : Instruction) (cause : AddressCause)
  | operand (ins : Instruction) (cause : OperandCause)
  | carry (b : Carry.Break)
  | blockLength (len limit : Nat)
  | tables {s t : Tier} (fault : Opcode.TableFault s t)
  | listing (fault : Assembly.LineFault)
  | descriptor (name : String) (fault : Descriptor.Fault)
  /-- A text that is no JSON, or not of what it should be of. -/
  | json
  | file (reason : String)
  | neverLowered (block : Nat)
deriving DecidableEq, Repr

def AddressCause.message : AddressCause → String
  | scale s => s!"scale {s.toInt} is not encodable"
  | baseIndexed a => s!"base {a} is already indexed"
  | dispTooWide => "displacement does not fit in 32 bits"

def OperandCause.message : OperandCause → String
  | leaSourceNotMemory => "LEA source must be a memory reference"
  | leaDestinationNotRegister => "LEA destination must be a register"
  | scaleNotImmediate o => s!"scale must be an immediate, got {o}"
  | indexInMemory a => s!"index must be a register or immediate, got {a}"
  | noScratch target => s!"needs a scratch register, target {target} reserves none"
  | scratchInUse r => s!"operand uses reserved scratch register {r}"

namespace Error

def missingFile : Error := file "No such file or directory (os error 2)"

/-- The class that the error is reported under. -/
def heading : Error → Heading
  | unsupportedOpcode ins => .unsupportedOpcode ins.tier.arity ins.opcode.code.toNat
  | immutableDestination _ => .immutableDestination
  | misfit _ | address .. => .addressingOverflow
  | operand .. => .invalidOperand
  | carry b => .carryChainBroken b.producer b.offender
  | blockLength .. => .resourceLimit
  | tables _ => .tables
  | listing fault => .parse fault.line
  | descriptor .. | json => .config
  | file _ => .io
  | neverLowered _ => .workerPanicked

/-- The words that belong to this very error. -/
def detail : Error → String
  | unsupportedOpcode ins | immutableDestination ins => toString ins
  | misfit m => m.message
  | address ins cause => s!"{ins}: {cause.message}"
  | operand ins cause => s!"{ins}: {cause.message}"
  | carry b => b.cause.message
  | blockLength len limit => s!"Block of {len} instructions exceeds limit {limit}"
  | tables fault => fault.message
  | listing fault => fault.fault.message
  | descriptor name fault => s!"{name}: {fault.message}"
  | json => "JSON error"
  | file reason => reason
  | neverLowered block => s!"block {block} was never lowered"

def message (e : Error) : String :=
  e.heading.report e.detail

def label (e : Error) : String :=
  e.heading.label

end Error

/-! ## Checks that fail with an error -/

/-- Looks through the tables of operations. -/
def Opcode.checkTables : Except Error Unit := do
  (checkTable ternaryTable).mapError .tables
  (checkTable quaternaryTable).mapError .tables
  (checkPartialTable binaryTable).mapError .tables

/-- The target of a descriptor that breaks no rule. -/
def Descriptor.toTarget (d : Descriptor) : Except Error Target :=
  (Target.ofDescriptor d).mapError (.descriptor d.name)

/-- Refuses a block above the limit. -/
def Descriptor.checkLength (d : Descriptor) (len : Nat) : Except Error Unit :=
  if d.admits len then .ok () else .error (.blockLength len d.maxBlockLen.toNat)

/-- Refuses an address that is not encoded. -/
def AddressingMode.check (mode : AddressingMode) (a : Address) : Except Error Unit :=
  match mode.misfit? a with
  | none => .ok ()
  | some m => .error (.misfit m)

end TwoAddress
