/-
# `Codec.Descriptor` — descriptors of targets as JSON

The text of a descriptor is read to a target in one go, so a descriptor that
breaks a rule never gets further (`Target.ofText`).
-/
import TwoAddress.Codec.Instruction
import TwoAddress.Error
import TwoAddress.Json.Printer
import TwoAddress.Json.Reader

namespace TwoAddress

open Json

namespace AddressingMode

def toJson (mode : AddressingMode) : Json :=
  .obj [("max_fields", .int mode.maxFields.toNat),
    ("scales", .arr (mode.scales.map fun s => .int s.toNat))]

def ofJson? (j : Json) : Option AddressingMode :=
  match fields? ["max_fields", "scales"] j with
  | some [maxFields, scales] => do
      return ⟨← given? Json.uint8? maxFields, ← given? (list? Json.uint8?) scales⟩
  | _ => none

end AddressingMode

namespace Descriptor

def toJson (d : Descriptor) : Json :=
  .obj [("name", .str d.name), ("addressing", ofOption AddressingMode.toJson d.addressing),
    ("lea_fusion", .bool d.leaFusion), ("scratch", ofOption Reg.toJson d.scratch),
    ("memory_to_memory", .bool d.memoryToMemory),
    ("max_block_len", .int d.maxBlockLen.toNat)]

def ofJson? (j : Json) : Option Descriptor :=
  match fields? ["name", "addressing", "lea_fusion", "scratch", "memory_to_memory",
      "max_block_len"] j with
  | some [name, addressing, leaFusion, scratch, memoryToMemory, maxBlockLen] => do
      return {
        name := ← given? string? name
        addressing := ← optional? AddressingMode.ofJson? addressing
        leaFusion := ← given? bool? leaFusion
        scratch := ← optional? Reg.ofJson? scratch
        memoryToMemory := ← given? bool? memoryToMemory
        maxBlockLen := UInt64.ofNat (← given? word64? maxBlockLen) }
  | _ => none

def toText (d : Descriptor) : List Char :=
  d.toJson.pretty

end Descriptor

namespace Target

/-- The target that a text describes. -/
def ofText (text : List Char) : Except Error Target :=
  match (read? text).bind Descriptor.ofJson? with
  | some d => d.toTarget
  | none => .error .json

end Target

end TwoAddress
