/-
# `Assembly.Reader` — reading one instruction

An instruction is a mnemonic and, after blanks, its operands with commas
between them. A mnemonic is the name of a declared opcode, which settles the
number of operands too, or `Op<operands>(<code>)` for any opcode at all.

Of two faults the one that shows first is reported, in this order: the
mnemonic, the brackets, empty operands, the operands from left to right, their
number.
-/
import TwoAddress.Assembly.Address
import TwoAddress.Instruction

namespace TwoAddress.Assembly

/-! ## Mnemonics -/

/-- An opcode of any tier. -/
structure Mnemonic where
  tier : Tier
  opcode : Opcode tier

namespace Mnemonic

/-- The opcode that a name stands for, in the first tier that has the name. -/
def ofName? (word : String) : Option Mnemonic :=
  Tier.all.findSome? fun tier => (Opcode.ofMnemonic? tier word).map (⟨tier, ·⟩)

/-- The tier that a single digit stands for. -/
def tier? (text : List Char) : Option Tier :=
  Tier.all.find? fun tier => Numeral.ofNat tier.arity == text

/-- The opcode of a text of the form `Op<operands>(<code>)`. -/
def ofCode? : List Char → Option Mnemonic
  | 'O' :: 'p' :: rest =>
      match rest.getLast?, rest.dropLast.span (· != '(') with
      | some ')', (arity, '(' :: code) => do
          return ⟨← tier? arity, ⟨← Numeral.uint8? code⟩⟩
      | _, _ => none
  | _ => none

def ofWord? (word : List Char) : Option Mnemonic :=
  (ofName? (String.ofList word)).or (ofCode? word)

end Mnemonic

/-! ## Operands -/

/-- Whether the brackets of a text match, `inside` telling whether one is open
at its start. No bracket opens inside another. -/
def balanced (inside : Bool) : List Char → Bool
  | [] => !inside
  | '[' :: rest => !inside && balanced true rest
  | ']' :: rest => inside && balanced false rest
  | _ :: rest => balanced inside rest

/-- The pieces of a text between the commas outside brackets, `inside` telling
whether a bracket is open at its start. -/
def splitOutside (inside : Bool) : List Char → List (List Char)
  | [] => [[]]
  | c :: rest =>
      if c = ',' ∧ inside = false then [] :: splitOutside false rest
      else
        let inside := if c = '[' then true else if c = ']' then false else inside
        match splitOutside inside rest with
        | [] => [[c]]
        | piece :: more => (c :: piece) :: more

def operandTexts (text : List Char) : Except Fault (List (List Char)) :=
  if !balanced false text then .error (.unbalanced text)
  else
    let pieces := (splitOutside false text).map Text.trim
    if pieces.any List.isEmpty then .error (.emptyOperand text) else .ok pieces

/-- The text between the brackets, if there is one at either end. -/
def bracketed? : List Char → Option (List Char)
  | '[' :: rest => if rest.getLast? = some ']' then some rest.dropLast else none
  | _ => none

def operand (text : List Char) : Except Fault Operand :=
  match bracketed? text with
  | some inner => do return .mem (← address inner)
  | none =>
      match register? text with
      | some r => do return .reg (← r)
      | none =>
          match Numeral.int64? text with
          | some v => .ok (.imm v)
          | none => .error (.badOperand text)

/-! ## Instructions -/

/-- The instruction that a text spells. -/
def instruction (text : List Char) : Except Fault Instruction :=
  let line := Text.trim text
  let (word, rest) := line.span (!Text.isBlank ·)
  match Mnemonic.ofWord? word with
  | none => .error (.unknownMnemonic word)
  | some ⟨tier, opcode⟩ => do
      let rest := Text.trim rest
      let operands ←
        if rest.isEmpty then pure [] else (← operandTexts rest).mapM operand
      match Instruction.ofOperands? tier opcode operands with
      | some ins => .ok ins
      | none => .error (.operandCount word tier.arity operands.length)

end TwoAddress.Assembly
