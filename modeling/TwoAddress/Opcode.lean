/-
# `Opcode` — operation codes, one space for each operand count

An opcode is a byte, and its meaning depends on how many operands the
instruction takes: `ADD` and `ADD3` are both 12. The count is therefore part of
the type, and the shared numbers are harmless. What an operation becomes with
fewer operands is never read off its number, only off the three tables
`ternaryTable`, `quaternaryTable` and `binaryTable`.

Any byte is an opcode. The declared ones have a name; the others are written
as `Op<operands>(<code>)` and are refused when they are lowered.
-/

namespace TwoAddress

/-- The operand counts of instructions, each with a code space of its own. -/
inductive Tier where
  | nullary
  | unary
  | binary
  | ternary
  | quaternary
deriving DecidableEq, Repr

namespace Tier

def arity : Tier → Nat
  | nullary => 0
  | unary => 1
  | binary => 2
  | ternary => 3
  | quaternary => 4

def all : List Tier :=
  [nullary, unary, binary, ternary, quaternary]

def ofArity? (n : Nat) : Option Tier :=
  all[n]?

theorem ofArity?_arity (t : Tier) : ofArity? t.arity = some t := by
  cases t <;> rfl

end Tier

/-- An operation code of one tier. -/
structure Opcode (tier : Tier) where
  code : UInt8
deriving DecidableEq, Repr

namespace Opcode

/-! ## The declared opcodes -/

def nop : Opcode .nullary := ⟨57⟩
def ret : Opcode .nullary := ⟨80⟩

/-- Clear the destination. -/
def zero : Opcode .unary := ⟨66⟩
def inc : Opcode .unary := ⟨37⟩
def dec : Opcode .unary := ⟨38⟩
def neg : Opcode .unary := ⟨1⟩
def not : Opcode .unary := ⟨2⟩

/-- Add; leaves a carry. -/
def add : Opcode .binary := ⟨12⟩
/-- Subtract; leaves a borrow. -/
def sub : Opcode .binary := ⟨13⟩
/-- Add with carry. -/
def adc : Opcode .binary := ⟨97⟩
/-- Subtract with borrow. -/
def sbb : Opcode .binary := ⟨98⟩
def mul : Opcode .binary := ⟨14⟩
def div : Opcode .binary := ⟨15⟩
def rem : Opcode .binary := ⟨16⟩
def and : Opcode .binary := ⟨17⟩
def or : Opcode .binary := ⟨18⟩
def xor : Opcode .binary := ⟨19⟩
def shl : Opcode .binary := ⟨20⟩
def shr : Opcode .binary := ⟨21⟩
/-- Clear the bits set in the source. -/
def andNot : Opcode .binary := ⟨22⟩
/-- Logical conjunction. -/
def land : Opcode .binary := ⟨34⟩
/-- Logical disjunction. -/
def lor : Opcode .binary := ⟨35⟩
def mov : Opcode .binary := ⟨42⟩
def cast : Opcode .binary := ⟨84⟩
/-- Load the address of a memory operand. -/
def lea : Opcode .binary := ⟨36⟩
/-- Write the negated source. -/
def neg2 : Opcode .binary := ⟨1⟩
/-- Write the complemented source. -/
def not2 : Opcode .binary := ⟨2⟩

/-! The three-operand opcodes keep their sources; each has the number of its
two-operand counterpart. -/

def add3 : Opcode .ternary := ⟨12⟩
def sub3 : Opcode .ternary := ⟨13⟩
def adc3 : Opcode .ternary := ⟨97⟩
def sbb3 : Opcode .ternary := ⟨98⟩
def mul3 : Opcode .ternary := ⟨14⟩
def div3 : Opcode .ternary := ⟨15⟩
def rem3 : Opcode .ternary := ⟨16⟩
def and3 : Opcode .ternary := ⟨17⟩
def or3 : Opcode .ternary := ⟨18⟩
def xor3 : Opcode .ternary := ⟨19⟩
def shl3 : Opcode .ternary := ⟨20⟩
def shr3 : Opcode .ternary := ⟨21⟩
def andNot3 : Opcode .ternary := ⟨22⟩
def land3 : Opcode .ternary := ⟨34⟩
def lor3 : Opcode .ternary := ⟨35⟩

/-- Load a base plus a scaled index. -/
def lea4 : Opcode .quaternary := ⟨36⟩

/-- The declared opcodes of a tier with their names. No code and no name
stands twice, and no name stands in two tiers. -/
def declared : (tier : Tier) → List (Opcode tier × String)
  | .nullary => [(nop, "NOP"), (ret, "RET")]
  | .unary =>
      [(zero, "ZERO"), (inc, "INC"), (dec, "DEC"), (neg, "NEG"), (not, "NOT")]
  | .binary =>
      [(add, "ADD"), (sub, "SUB"), (adc, "ADC"), (sbb, "SBB"), (mul, "MUL"),
       (div, "DIV"), (rem, "REM"), (and, "AND"), (or, "OR"), (xor, "XOR"),
       (shl, "SHL"), (shr, "SHR"), (andNot, "AND_NOT"), (land, "LAND"),
       (lor, "LOR"), (mov, "MOV"), (cast, "CAST"), (lea, "LEA"),
       (neg2, "NEG2"), (not2, "NOT2")]
  | .ternary =>
      [(add3, "ADD3"), (sub3, "SUB3"), (adc3, "ADC3"), (sbb3, "SBB3"),
       (mul3, "MUL3"), (div3, "DIV3"), (rem3, "REM3"), (and3, "AND3"),
       (or3, "OR3"), (xor3, "XOR3"), (shl3, "SHL3"), (shr3, "SHR3"),
       (andNot3, "AND_NOT3"), (land3, "LAND3"), (lor3, "LOR3")]
  | .quaternary => [(lea4, "LEA4")]

variable {tier : Tier}

def name? (op : Opcode tier) : Option String :=
  ((declared tier).find? (·.1 == op)).map (·.2)

/-- Whether the opcode has a name. -/
def isDeclared (op : Opcode tier) : Bool :=
  op.name?.isSome

/-- The declared opcode of a name. -/
def ofName? (tier : Tier) (name : String) : Option (Opcode tier) :=
  ((declared tier).find? (·.2 == name)).map (·.1)

/-- The opcode that a mnemonic names. Beside its name, `DIV` is also known as
`QUO`. -/
def ofMnemonic? : (tier : Tier) → (word : String) → Option (Opcode tier)
  | .binary, "QUO" => some div
  | tier, word => ofName? tier word

/-! ## Passing to fewer operands -/

/-- The two-operand operation of each three-operand one. -/
def ternaryTable : List (Opcode .ternary × Opcode .binary) :=
  [(add3, add), (sub3, sub), (adc3, adc), (sbb3, sbb), (mul3, mul), (div3, div),
   (rem3, rem), (and3, and), (or3, or), (xor3, xor), (shl3, shl), (shr3, shr),
   (andNot3, andNot), (land3, land), (lor3, lor)]

def quaternaryTable : List (Opcode .quaternary × Opcode .binary) :=
  [(lea4, lea)]

/-- The one-operand operation of each two-operand one that has any. -/
def binaryTable : List (Opcode .binary × Opcode .unary) :=
  [(neg2, neg), (not2, not)]

/-- The two-operand operation that computes what `op` computes. -/
def ternaryToBinary? (op : Opcode .ternary) : Option (Opcode .binary) :=
  (ternaryTable.find? (·.1 == op)).map (·.2)

def quaternaryToBinary? (op : Opcode .quaternary) : Option (Opcode .binary) :=
  (quaternaryTable.find? (·.1 == op)).map (·.2)

/-- The one-operand operation that computes in place what `op` computes. -/
def toUnary? (op : Opcode .binary) : Option (Opcode .unary) :=
  (binaryTable.find? (·.1 == op)).map (·.2)

theorem mem_of_lookup {α β : Type} [BEq α] [LawfulBEq α] {table : List (α × β)} {x : α} {y : β}
    (h : (table.find? (·.1 == x)).map (·.2) = some y) : (x, y) ∈ table := by
  obtain ⟨⟨x', y'⟩, hx, rfl⟩ := Option.map_eq_some_iff.mp h
  obtain rfl : x' = x := by simpa using List.find?_some hx
  exact List.mem_of_find?_eq_some hx

/-! ## Properties of operations -/

/-- Whether the two operands may be swapped. -/
def isCommutative (op : Opcode .binary) : Bool :=
  [add, adc, mul, and, or, xor].contains op

/-- Whether the operation is sure to leave the carry alone. Of the
two-operand ones only the address computation is: `MOV` and `CAST` may be
encoded through forms that touch it. -/
def preservesCarry : {tier : Tier} → Opcode tier → Bool
  | .nullary, op => [nop, ret].contains op
  | .binary, op => op == lea
  | _, _ => false

/-! ## Written form -/

/-- The name, or `Op<operands>(<code>)` for an opcode without one. -/
def toString (op : Opcode tier) : String :=
  match op.name? with
  | some name => name
  | none => s!"Op{tier.arity}({op.code.toNat})"

instance : ToString (Opcode tier) := ⟨toString⟩

end Opcode

end TwoAddress
