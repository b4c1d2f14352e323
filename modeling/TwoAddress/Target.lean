/-
# `Target` — what the machine that code is lowered for can do

All targets take instructions of at most two operands, the first of which is
overwritten, and keep one carry. They differ in the addresses they encode, in
whether two operands of one instruction may both be memory, in whether sums may
be computed by address computation, and in whether a register is set aside for
lowering.

A `Descriptor` is any such description, as it stands in a file. A `Target` is
one that breaks no rule (`Descriptor.fault?`), and only for a `Target` is code
lowered.
-/
import TwoAddress.Assembly.Printer

namespace TwoAddress

/-- The addresses that a target encodes. -/
structure AddressingMode where
  /-- How many fields one address may have. -/
  maxFields : UInt8
  /-- The constants by which an index may be multiplied. -/
  scales : List UInt8
deriving DecidableEq, Repr

namespace AddressingMode

/-- Base, index times 1, 2, 4 or 8, and displacement. -/
def full : AddressingMode := ⟨3, [1, 2, 4, 8]⟩

/-- Why an address is not encoded. -/
inductive Misfit where
  | scale (a : Address) (scale : UInt8) (supported : List UInt8)
  | fields (a : Address) (limit : UInt8)
deriving DecidableEq, Repr

def renderScales (scales : List UInt8) : String :=
  "[" ++ ", ".intercalate (scales.map fun s => toString s.toNat) ++ "]"

def Misfit.message : Misfit → String
  | scale a s supported =>
      s!"scale {s.toNat} in {a} is not encodable (supported: {renderScales supported})"
  | fields a limit =>
      s!"{a} needs {a.fields} address fields, target supports {limit.toNat}"

def supportsScale (mode : AddressingMode) (scale : UInt8) : Bool :=
  mode.scales.contains scale

/-- What keeps the address from being encoded; its scale is looked at first. -/
def misfit? (mode : AddressingMode) (a : Address) : Option Misfit :=
  match a.index.filter fun x => !mode.supportsScale x.scale with
  | some x => some (.scale a x.scale mode.scales)
  | none => if a.fields ≤ mode.maxFields.toNat then none else some (.fields a mode.maxFields)

def encodes (mode : AddressingMode) (a : Address) : Bool :=
  (mode.misfit? a).isNone

theorem encodes_iff {mode : AddressingMode} {a : Address} :
    mode.encodes a ↔
      (∀ x ∈ a.index, x.scale ∈ mode.scales) ∧ a.fields ≤ mode.maxFields.toNat := by
  rcases h : a.index with _ | x
  · simp only [encodes, misfit?, h, Option.filter_none]
    split <;> simp_all
  · by_cases hx : x.scale ∈ mode.scales
    · simp only [encodes, misfit?, h, supportsScale, Option.filter]
      split <;> simp_all
    · simp [encodes, misfit?, h, supportsScale, Option.filter, hx]

end AddressingMode

/-- A description of a target, sound or not. -/
structure Descriptor where
  name : String
  /-- Missing if the target has no instruction that computes an address. -/
  addressing : Option AddressingMode
  /-- Whether a sum that keeps its operands may become an address computation. -/
  leaFusion : Bool
  /-- A register that lowering may overwrite. -/
  scratch : Option Reg
  /-- Whether both operands of an instruction may be memory. -/
  memoryToMemory : Bool
  /-- How many instructions a block may have before it is lowered. -/
  maxBlockLen : UInt64
deriving DecidableEq, Repr

namespace Descriptor

/-- A rule for descriptors that is broken. -/
inductive Fault where
  | fieldLimit (n : UInt8)
  | noScales
  | scale (s : UInt8)
  | fusionWithoutAddressing
  | noRoomForBlocks
deriving DecidableEq, Repr

def Fault.message : Fault → String
  | fieldLimit n => s!"max_fields must be 1..=3, got {n.toNat}"
  | noScales => "addressing mode lists no scales"
  | scale s => s!"unsupported scale {s.toNat}"
  | fusionWithoutAddressing => "lea_fusion requires an addressing mode"
  | noRoomForBlocks => "max_block_len must be positive"

/-- The first rule that an addressing mode breaks: its addresses have one to
three fields, and it has scales, all of which are among those of
`AddressingMode.full`. -/
def addressingFault? (mode : AddressingMode) : Option Fault :=
  if mode.maxFields = 0 ∨ 3 < mode.maxFields then some (.fieldLimit mode.maxFields)
  else if mode.scales.isEmpty then some .noScales
  else (mode.scales.find? fun s => !AddressingMode.full.supportsScale s).map .scale

/-- The first rule that the descriptor breaks. -/
def fault? (d : Descriptor) : Option Fault :=
  let addressing :=
    match d.addressing with
    | some mode => addressingFault? mode
    | none => if d.leaFusion then some .fusionWithoutAddressing else none
  addressing.or (if d.maxBlockLen = 0 then some .noRoomForBlocks else none)

/-- Whether a block of `len` instructions is within the limit. -/
def admits (d : Descriptor) (len : Nat) : Bool :=
  decide (len ≤ d.maxBlockLen.toNat)

end Descriptor

/-- A descriptor that breaks no rule. -/
structure Target extends Descriptor where
  sound : toDescriptor.fault? = none

namespace Target

/-- The target of a descriptor, or the first rule that it breaks. -/
def ofDescriptor (d : Descriptor) : Except Descriptor.Fault Target :=
  match h : d.fault? with
  | none => .ok ⟨d, h⟩
  | some fault => .error fault

theorem ofDescriptor_eq_ok_iff {d : Descriptor} {t : Target} :
    ofDescriptor d = .ok t ↔ t.toDescriptor = d := by
  obtain ⟨d', sound⟩ := t
  rw [ofDescriptor]
  split
  case h_1 => simp [eq_comm]
  case h_2 fault broken => exact ⟨by simp, fun h => by simp [← h, sound] at broken⟩

theorem ofDescriptor_eq_error_iff {d : Descriptor} {fault : Descriptor.Fault} :
    ofDescriptor d = .error fault ↔ d.fault? = some fault := by
  rw [ofDescriptor]
  split <;> simp_all

/-- The 64-bit two-operand machine, without a register set aside. -/
def amd64 : Target where
  name := "amd64"
  addressing := some .full
  leaFusion := true
  scratch := none
  memoryToMemory := false
  maxBlockLen := 10000
  sound := by decide

/-- The same machine with a register set aside for lowering. -/
def amd64WithScratch (r : Reg) : Target :=
  { amd64 with scratch := some r, sound := amd64.sound }

/-- A machine that computes no addresses. -/
def minimal : Target where
  name := "minimal"
  addressing := none
  leaFusion := false
  scratch := none
  memoryToMemory := false
  maxBlockLen := 1000
  sound := by decide

end Target

end TwoAddress
