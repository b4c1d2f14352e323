/-
# `Codec.Block` — lowered code as JSON
-/
import TwoAddress.Block
import TwoAddress.Codec.Instruction

namespace TwoAddress

open Json

namespace Lowered

def toJson (x : Lowered) : Json :=
  .obj [("instruction", x.instruction.toJson), ("flag_preserving", .bool x.flagPreserving),
    ("origin", .int x.origin)]

def ofJson? (j : Json) : Option Lowered :=
  match fields? ["instruction", "flag_preserving", "origin"] j with
  | some [ins, flag, origin] => do
      return ⟨← given? Instruction.ofJson? ins, ← given? bool? flag, ← given? word64? origin⟩
  | _ => none

end Lowered

namespace LoweredBlock

def toJson (b : LoweredBlock) : Json :=
  .obj [("instructions", .arr (b.items.map Lowered.toJson))]

def ofJson? (j : Json) : Option LoweredBlock :=
  match fields? ["instructions"] j with
  | some [items] => (given? (list? Lowered.ofJson?) items).map LoweredBlock.mk
  | _ => none

/-- The code of several blocks, null for each that could not be lowered. -/
def allToJson (blocks : List (Option LoweredBlock)) : Json :=
  .arr (blocks.map (ofOption toJson))

def allOfJson? : Json → Option (List (Option LoweredBlock)) :=
  list? (nullable? ofJson?)

end LoweredBlock

end TwoAddress
