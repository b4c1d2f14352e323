/-
# `Assembly.Address` — reading an address

The text between the brackets is a sum. Blanks mean nothing in it, wherever
they stand. Between two terms stands a row of signs, and a term counts as
negative if the row before it holds an odd number of minus signs, so
`[R1 - -8]` is `[R1+8]`. A term is a register, a register times a scale, or a
number:

* registers and scaled registers may not be negative;
* the first plain register is the base, the second the index, of scale one;
* of scaled registers there is at most one, and none beside two plain ones;
* numbers add up to the displacement. Every sum on the way has to fit in 64
  bits and the last one in 32.
-/
import TwoAddress.Assembly.Fault
import TwoAddress.Operand
import TwoAddress.Text.Blank

namespace TwoAddress.Assembly

/-- The register that a text of the form `R<digits>` spells; `none` if it is
not of that form. -/
def register? : List Char → Option (Except Fault Reg)
  | 'R' :: digits =>
      if digits.isEmpty || !digits.all Char.isDigit then none
      else
        match Numeral.uint8? digits with
        | some n => some (.ok ⟨n⟩)
        | none => some (.error (.registerRange ('R' :: digits)))
  | _ => none

/-! ## Cutting a sum into terms -/

/-- A term of a sum with its sign. -/
structure Term where
  negative : Bool
  text : List Char
deriving DecidableEq, Repr

def isSign (c : Char) : Bool :=
  c == '+' || c == '-'

/-- The terms of a sum of which `term` has been read, with the sign given by
`negative`; `none` if a term is missing at the end. -/
def termsAfter? (negative : Bool) (term : List Char) : List Char → Option (List Term)
  | [] => if term.isEmpty then none else some [⟨negative, term⟩]
  | c :: rest =>
      if isSign c then
        if term.isEmpty then termsAfter? (negative != (c == '-')) [] rest
        else (termsAfter? (c == '-') [] rest).map (⟨negative, term⟩ :: ·)
      else termsAfter? negative (term ++ [c]) rest

def terms? (text : List Char) : Option (List Term) :=
  termsAfter? false [] (text.filter (!Text.isBlank ·))

/-! ## Adding the terms up -/

/-- The part of an address that has been read; its displacement is not yet
bounded by the 32 bits it has to fit in. -/
structure Sum where
  base : Option Reg
  index : Option ScaledReg
  disp : Int
deriving DecidableEq, Repr

namespace Sum

def empty : Sum := ⟨none, none, 0⟩

/-- What a term adds to an address. -/
inductive Part where
  | scaled (x : ScaledReg)
  | register (r : Reg)
  | number (n : Int)
deriving DecidableEq, Repr

/-- Reads a term without its sign, in the address `whole`. -/
def part (whole term : List Char) : Except Fault Part :=
  match term.span (· != '*') with
  | (reg, '*' :: scale) =>
      match register? reg, Numeral.uint8? scale with
      | none, _ => .error (.badIndex whole)
      | some (.error fault), _ => .error fault
      | some (.ok _), none => .error (.badScale whole)
      | some (.ok r), some s => .ok (.scaled ⟨r, s⟩)
  | _ =>
      match register? term with
      | some (.ok r) => .ok (.register r)
      | some (.error fault) => .error fault
      | none =>
          match Numeral.int64? term with
          | some n => .ok (.number n.toInt)
          | none => .error (.badTerm term)

def add (whole : List Char) (sum : Sum) (negative : Bool) : Part → Except Fault Sum
  | .scaled x =>
      if negative || sum.index.isSome then .error (.unsupportedIndex whole)
      else .ok { sum with index := some x }
  | .register r =>
      if negative then .error (.negativeRegister whole)
      else if sum.base.isNone then .ok { sum with base := some r }
      else if sum.index.isNone then .ok { sum with index := some ⟨r, 1⟩ }
      else .error (.tooManyRegisters whole)
  | .number n =>
      match int64? (sum.disp + if negative then -n else n) with
      | some disp => .ok { sum with disp := disp.toInt }
      | none => .error (.displacementRange whole)

def addTerms (whole : List Char) : Sum → List Term → Except Fault Sum
  | sum, [] => .ok sum
  | sum, t :: rest => do
      let part ← part whole t.text
      addTerms whole (← sum.add whole t.negative part) rest

def toAddress (whole : List Char) (sum : Sum) : Except Fault Address :=
  match int32? sum.disp with
  | some disp => .ok ⟨sum.base, sum.index, disp⟩
  | none => .error (.displacementRange whole)

end Sum

/-- The address that the text between two brackets spells. -/
def address (text : List Char) : Except Fault Address :=
  match terms? text with
  | none => .error (.emptyTerm text)
  | some terms => do (← Sum.empty.addTerms text terms).toAddress text

end TwoAddress.Assembly
