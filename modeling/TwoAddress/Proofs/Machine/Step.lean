/-
# `Proofs.Machine.Step` — what instructions do to a state

Two machines take steps on the same states. `Meaning.step` is that of the
target, which knows instructions of at most two operands; `Meaning.stepVirtual`
takes all of them. Either may get stuck, and then has no next state.

The links of chains compute with a carry, and their results are fixed here, as
are those of negation, complement, copies, products and the bitwise operations.
What the other operations compute does not matter to lowering, as long as it is
a function of the values they are given, and so a `Meaning` says it. What an
instruction that is neither a link nor inert does to the carry is left open too
(`CarryPolicy`): it may leave it alone or make it undefined, and the two
machines need not even agree on that.
-/
import TwoAddress.Proofs.Machine.State
import TwoAddress.Carry.Link

namespace TwoAddress

namespace Machine

/-! ## Values -/

/-- The operations whose results do not matter, as functions of the values of
their operands. -/
structure Meaning where
  unary : Opcode .unary → Word → Word
  binary : Opcode .binary → Word → Word → Word

/-- The sum or difference of two words and a carry. -/
def total (f : Carry.Family) (a b : Word) (c : Bool) : Word :=
  match f with
  | .add => a + b + word c.toNat
  | .sub => a - b - word c.toNat

/-- Whether that sum or difference is carried or borrowed beyond a word. -/
def exceeds (f : Carry.Family) (a b : Word) (c : Bool) : Bool :=
  match f with
  | .add => decide (2 ^ 64 ≤ a.toNat + b.toNat + c.toNat)
  | .sub => decide (a.toNat < b.toNat + c.toNat)

namespace Meaning

variable (m : Meaning)

/-- What a one-operand operation makes of a value. -/
def unaryValue (op : Opcode .unary) (a : Word) : Word :=
  if op = .neg then -a
  else if op = .not then ~~~a
  else m.unary op a

/-- What an operation that is no link makes of two values. -/
def plainValue (op : Opcode .binary) (a b : Word) : Word :=
  if op = .mov then b
  else if op = .mul then a * b
  else if op = .and then a &&& b
  else if op = .or then a ||| b
  else if op = .xor then a ^^^ b
  else if op = .neg2 then -b
  else if op = .not2 then ~~~b
  else m.binary op a b

/-- What a two-operand operation makes of two values and, if it is a link, a
carry. -/
def value (op : Opcode .binary) (a b : Word) (c : Bool) : Word :=
  match Carry.Link.ofOpcode? op with
  | some l => total l.family a b c
  | none => m.plainValue op a b

end Meaning

/-- The carry that an operation computes with. It is undefined only where one is
read that is. -/
def carryIn (op : Opcode .binary) (carry : Option Bool) : Option Bool :=
  match Carry.Link.ofOpcode? op with
  | some ⟨.consume, _⟩ => carry
  | _ => some false

/-! ## Steps -/

/-- Which instructions, of those that are neither links nor inert, leave the
carry as it is. After the others it is undefined. -/
abbrev CarryPolicy := Instruction → Bool

/-- The carry after an instruction that is neither a link nor inert. -/
def CarryPolicy.after (keeps : CarryPolicy) (ins : Instruction) (carry : Option Bool) :
    Option Bool :=
  if keeps ins then carry else none

/-- Writes a result, which cannot be done to an immediate. -/
def State.assign (s : State) (dst : Operand) (x : Word) (carry : Option Bool) : Option State :=
  if dst.isImm then none else some (s.set dst x carry)

/-- The base of a scaled sum: a register, a number, or the address that an
unindexed memory operand stands for. -/
def State.baseValue (s : State) : Operand → Option Word
  | .mem a => if a.index.isNone then some (s.address a) else none
  | o => some (s.read o)

namespace Meaning

variable (m : Meaning) (keeps : CarryPolicy)

/-- The step of a two-operand operation other than the address computation. -/
def operate (s : State) (op : Opcode .binary) (dst src : Operand) : Option State := do
  let c ← carryIn op s.carry
  let a := s.read dst
  let b := s.read src
  s.assign dst (m.value op a b c) <|
    match Carry.Link.ofOpcode? op with
    | some l => some (exceeds l.family a b c)
    | none => keeps.after (.binary op dst src) s.carry

/-- A step of the target. -/
def step (s : State) (ins : Instruction) : Option State :=
  match ins with
  | .nullary _ => some s
  | .unary op dst => s.assign dst (m.unaryValue op (s.read dst)) (keeps.after ins s.carry)
  | .binary op dst src =>
      if op = .lea then
        match src with
        | .mem a => s.assign dst (s.address a) s.carry
        | _ => none
      else m.operate keeps s op dst src
  | .ternary .. | .quaternary .. => none

/-- A step on any instruction. Of those with three operands only the links leave
a carry, and the others leave it alone. -/
def stepVirtual (s : State) (ins : Instruction) : Option State :=
  match ins with
  | .ternary op3 dst a b => do
      let op ← op3.ternaryToBinary?
      let c ← carryIn op s.carry
      s.assign dst (m.value op (s.read a) (s.read b) c) <|
        match Carry.Link.of? ins with
        | some l => some (exceeds l.family (s.read a) (s.read b) c)
        | none => s.carry
  | .quaternary op4 dst base index scale => do
      let _ ← op4.quaternaryToBinary?
      let x ← s.baseValue base
      s.assign dst (x + s.read index * s.read scale) s.carry
  | ins => m.step keeps s ins

def run (s : State) (code : List Instruction) : Option State :=
  code.foldlM (m.step keeps) s

def runVirtual (s : State) (block : List Instruction) : Option State :=
  block.foldlM (m.stepVirtual keeps) s

end Meaning

/-! ## Laws of the values -/

section Values

variable (m : Meaning) {op : Opcode .binary}

theorem total_add_comm (a b : Word) (c : Bool) : total .add a b c = total .add b a c := by
  simp only [total, add_comm a b]

theorem exceeds_add_comm (a b : Word) (c : Bool) : exceeds .add a b c = exceeds .add b a c := by
  simp only [exceeds, Nat.add_comm a.toNat b.toNat]

/-- The operations on which lowering swaps the operands do not mind. -/
theorem Meaning.value_comm (h : op.isCommutative = true) (a b : Word) (c : Bool) :
    m.value op a b c = m.value op b a c := by
  have hop : op = .add ∨ op = .adc ∨ op = .mul ∨ op = .and ∨ op = .or ∨ op = .xor := by
    simpa [Opcode.isCommutative] using h
  rcases hop with rfl | rfl | rfl | rfl | rfl | rfl
  · exact total_add_comm a b c
  · exact total_add_comm a b c
  · exact mul_comm a b
  · exact BitVec.and_comm a b
  · exact BitVec.or_comm a b
  · exact BitVec.xor_comm a b

theorem exceeds_comm {l : Carry.Link} (h : l.opcode.isCommutative = true) (a b : Word)
    (c : Bool) : exceeds l.family a b c = exceeds l.family b a c := by
  rcases l with ⟨_ | _, _ | _⟩
  · exact exceeds_add_comm a b c
  · exact nomatch h
  · exact exceeds_add_comm a b c
  · exact nomatch h

theorem Meaning.value_add (a b : Word) : m.value .add a b false = a + b := by
  show a + b + word 0 = a + b
  exact add_zero (a + b)

theorem Meaning.value_sub (a b : Word) : m.value .sub a b false = a - b := by
  show a - b - word 0 = a - b
  exact sub_zero (a - b)

/-- A difference is the negated second value plus the first. -/
theorem Meaning.value_sub_eq_add (a b : Word) :
    m.value .sub a b false = m.value .add (m.unaryValue .neg b) a false := by
  rw [m.value_sub, m.value_add]
  exact (neg_add_eq_sub b a).symm

theorem Meaning.value_mov (a b : Word) (c : Bool) : m.value .mov a b c = b := rfl

theorem Meaning.value_toUnary {unary : Opcode .unary} (h : op.toUnary? = some unary)
    (a b : Word) (c : Bool) : m.value op a b c = m.unaryValue unary b := by
  have table : ∀ x ∈ Opcode.binaryTable, (x.1 = .neg2 ∧ x.2 = .neg) ∨
      (x.1 = .not2 ∧ x.2 = .not) := by decide
  rcases table _ (Opcode.mem_of_lookup h) with ⟨rfl, rfl⟩ | ⟨rfl, rfl⟩
  · rfl
  · rfl

theorem carryIn_of_free (h : ∀ f, Carry.Link.ofOpcode? op ≠ some ⟨.consume, f⟩)
    (carry : Option Bool) : carryIn op carry = some false := by
  rw [carryIn]
  split
  case h_1 f hl => exact absurd hl (h f)
  case h_2 => rfl

theorem carryIn_of_consume {f : Carry.Family}
    (h : Carry.Link.ofOpcode? op = some ⟨.consume, f⟩) (carry : Option Bool) :
    carryIn op carry = carry := by
  rw [carryIn, h]

end Values

/-! ## Steps of the target -/

section Steps

variable {m : Meaning} {keeps : CarryPolicy} {s s' : State} {dst src : Operand}
  {code rest : List Instruction} {ins : Instruction}

theorem State.assign_of_not_imm (h : dst.isImm = false) (x : Word) (c : Option Bool) :
    s.assign dst x c = some (s.set dst x c) := by
  rw [State.assign, if_neg (by simp [h])]

theorem Meaning.step_unary {op : Opcode .unary} (h : dst.isImm = false) :
    m.step keeps s (.unary op dst) =
      some (s.set dst (m.unaryValue op (s.read dst)) (keeps.after (.unary op dst) s.carry)) :=
  State.assign_of_not_imm h _ _

theorem Meaning.step_lea {a : Address} (h : dst.isImm = false) :
    m.step keeps s (.binary .lea dst (.mem a)) = some (s.set dst (s.address a) s.carry) :=
  State.assign_of_not_imm h _ _

theorem Meaning.step_operate {op : Opcode .binary} {c : Bool} (hlea : op ≠ .lea)
    (h : dst.isImm = false) (hc : carryIn op s.carry = some c) :
    m.step keeps s (.binary op dst src) =
      some (s.set dst (m.value op (s.read dst) (s.read src) c)
        (match Carry.Link.ofOpcode? op with
          | some l => some (exceeds l.family (s.read dst) (s.read src) c)
          | none => keeps.after (.binary op dst src) s.carry)) := by
  simp only [Meaning.step, if_neg hlea, Meaning.operate, hc]
  exact State.assign_of_not_imm h _ _

theorem Meaning.step_mov (h : dst.isImm = false) :
    m.step keeps s (.binary .mov dst src) =
      some (s.set dst (s.read src) (keeps.after (.binary .mov dst src) s.carry)) :=
  Meaning.step_operate (by decide) h rfl

theorem Meaning.run_nil : m.run keeps s [] = some s := rfl

theorem Meaning.run_cons (h : m.step keeps s ins = some s') :
    m.run keeps s (ins :: rest) = m.run keeps s' rest := by
  rw [Meaning.run, List.foldlM_cons, h]
  rfl

theorem Meaning.run_one (h : m.step keeps s ins = some s') : m.run keeps s [ins] = some s' := by
  rw [Meaning.run_cons h, Meaning.run_nil]

theorem Meaning.run_append (h : m.run keeps s code = some s') :
    m.run keeps s (code ++ rest) = m.run keeps s' rest := by
  rw [Meaning.run, List.foldlM_append]
  show m.run keeps s code >>= _ = _
  rw [h]
  rfl

theorem Meaning.runVirtual_nil : m.runVirtual keeps s [] = some s := rfl

theorem Meaning.runVirtual_cons (h : m.stepVirtual keeps s ins = some s') :
    m.runVirtual keeps s (ins :: rest) = m.runVirtual keeps s' rest := by
  rw [Meaning.runVirtual, List.foldlM_cons, h]
  rfl

end Steps

end Machine

end TwoAddress
