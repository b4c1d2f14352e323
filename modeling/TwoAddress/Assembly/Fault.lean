/-
# `Assembly.Fault` — why a text is no instruction

Each fault keeps the piece of text it is about; the wording is in
`Fault.message` alone.
-/
import TwoAddress.Text.Numeral

namespace TwoAddress.Assembly

/-- A fault of a text that is read as an instruction. -/
inductive Fault where
  | unknownMnemonic (word : List Char)
  /-- The brackets do not match, or stand inside one another. -/
  | unbalanced (operands : List Char)
  | emptyOperand (operands : List Char)
  | badOperand (text : List Char)
  | registerRange (text : List Char)
  | operandCount (word : List Char) (expected found : Nat)
  /-- The address is empty or ends in a sign. -/
  | emptyTerm (address : List Char)
  | badTerm (term : List Char)
  | badIndex (address : List Char)
  | badScale (address : List Char)
  /-- A second index, or a negative one. -/
  | unsupportedIndex (address : List Char)
  | negativeRegister (address : List Char)
  | tooManyRegisters (address : List Char)
  | displacementRange (address : List Char)
deriving DecidableEq, Repr

def Fault.message : Fault → String
  | unknownMnemonic word => s!"unknown mnemonic '{String.ofList word}'"
  | unbalanced os => s!"unbalanced brackets in '{String.ofList os}'"
  | emptyOperand os => s!"empty operand in '{String.ofList os}'"
  | badOperand text => s!"bad operand '{String.ofList text}'"
  | registerRange text => s!"register out of range '{String.ofList text}'"
  | operandCount word expected found =>
      s!"{String.ofList word} takes {expected} operands, got {found}"
  | emptyTerm a => s!"empty address term in [{String.ofList a}]"
  | badTerm term => s!"bad term '{String.ofList term}'"
  | badIndex a => s!"bad index register in [{String.ofList a}]"
  | badScale a => s!"bad scale in [{String.ofList a}]"
  | unsupportedIndex a => s!"unsupported index in [{String.ofList a}]"
  | negativeRegister a => s!"negative register term in [{String.ofList a}]"
  | tooManyRegisters a => s!"too many registers in [{String.ofList a}]"
  | displacementRange a => s!"displacement out of range in [{String.ofList a}]"

end TwoAddress.Assembly
