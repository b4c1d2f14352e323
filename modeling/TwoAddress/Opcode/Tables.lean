/-
# `Opcode.Tables` — what the tables of operations are checked for

Lowering goes by three tables that are written by hand, so they are looked
through before anything is lowered. In the tables of the three- and four-operand
operations each operation with a name has exactly one entry, both sides of an
entry have names, and the names tell that it is one operation: the longer form
has its number of operands behind the name. Few two-operand operations have an
entry in their table, and of it only the names are checked.
-/
import TwoAddress.Opcode

namespace TwoAddress.Opcode

variable {s t : Tier}

/-- What is wrong with a table. -/
inductive TableFault (s t : Tier) where
  /-- An operation has no entry, or several. -/
  | entries (op : Opcode s) (count : Nat)
  | sourceUndeclared (op : Opcode s)
  | targetUndeclared (op : Opcode t)
  | unrelated (source : Opcode s) (target : Opcode t)
deriving DecidableEq, Repr

def TableFault.message (fault : TableFault s t) : String :=
  let words :=
    match fault with
    | entries op count => s!"{op} has {count} entries, expected exactly one"
    | sourceUndeclared op => s!"source {op} is not declared"
    | targetUndeclared op => s!"target {op} is not declared"
    | unrelated source target => s!"{source} maps to unrelated {target}"
  s!"Op{s.arity}->Op{t.arity}: {words}"

/-- Whether the name of an operation is that of another with the number of operands
behind it. -/
def isNamedAfter (source : Opcode s) (target : Opcode t) : Bool :=
  match source.name?, target.name? with
  | some long, some short => long == s!"{short}{s.arity}"
  | _, _ => false

def checkCount (table : List (Opcode s × Opcode t)) (op : Opcode s) :
    Except (TableFault s t) Unit :=
  let count := table.countP (·.1 == op)
  if count = 1 then .ok () else .error (.entries op count)

def checkNames (entry : Opcode s × Opcode t) : Except (TableFault s t) Unit :=
  if isNamedAfter entry.1 entry.2 then .ok () else .error (.unrelated entry.1 entry.2)

/-- Checks that there are names in an entry, and that they fit. -/
def checkEntry (entry : Opcode s × Opcode t) : Except (TableFault s t) Unit :=
  if !entry.1.isDeclared then .error (.sourceUndeclared entry.1)
  else if !entry.2.isDeclared then .error (.targetUndeclared entry.2)
  else checkNames entry

/-- Checks a table that takes every operation on. -/
def checkTable (table : List (Opcode s × Opcode t)) : Except (TableFault s t) Unit := do
  (declared s).forM fun entry => checkCount table entry.1
  table.forM checkEntry

/-- Checks a table that takes some operations on. -/
def checkPartialTable (table : List (Opcode s × Opcode t)) : Except (TableFault s t) Unit :=
  table.forM checkNames

end TwoAddress.Opcode
