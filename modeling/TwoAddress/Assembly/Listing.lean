/-
# `Assembly.Listing` — reading blocks of instructions

A listing has one instruction on a line. From a `#` to the end of its line it
is comment, and lines without instruction are skipped. A line of three hyphens
ends a block. Lines are counted from one through the whole listing, and the
first faulty one is reported.

A listing without separators is one block, even an empty one. After a separator
a further block begins only if an instruction follows.
-/
import TwoAddress.Assembly.Reader
import TwoAddress.Text.Lines

namespace TwoAddress.Assembly

/-- The fault of a line. -/
structure LineFault where
  line : Nat
  fault : Fault
deriving DecidableEq, Repr

/-- A line without its comment and the blanks around it. -/
def code (line : List Char) : List Char :=
  Text.trim (line.takeWhile (· != '#'))

/-- What stands on a line between two blocks. -/
def separator : List Char := "---".toList

def isSeparator (line : List Char) : Bool :=
  Text.trim line == separator

/-- Reads lines, each with its number, as the instructions of one block. -/
def blockOfLines : List (List Char × Nat) → Except LineFault (List Instruction)
  | [] => .ok []
  | (line, n) :: rest =>
      if (code line).isEmpty then blockOfLines rest
      else
        match instruction (code line) with
        | .error fault => .error ⟨n, fault⟩
        | .ok ins => do return ins :: (← blockOfLines rest)

/-- Reads a text as the instructions of one block. Its lines are counted on from
those of a listing that come before it. -/
def blockAfter (before : Nat) (text : List Char) : Except LineFault (List Instruction) :=
  blockOfLines ((Text.lines text).zipIdx (before + 1))

def splitBlocks : List (List Char) → List (List (List Char))
  | [] => [[]]
  | line :: rest =>
      if isSeparator line then [] :: splitBlocks rest
      else
        match splitBlocks rest with
        | [] => [[line]]
        | piece :: more => (line :: piece) :: more

/-- Reads pieces of a listing one after the other, each as a text of its own. With
its separator a piece takes one line more than it has. -/
def blocksAfter (before : Nat) :
    List (List (List Char)) → Except LineFault (List (List Instruction))
  | [] => .ok []
  | piece :: rest => do
      let block ← blockAfter before (Text.unlines piece)
      return block :: (← blocksAfter (before + piece.length + 1) rest)

/-- Drops a last block without instructions, unless it is the only one. -/
def dropEmptyLast : List (List Instruction) → List (List Instruction)
  | first :: rest => if rest.getLast? = some [] then first :: rest.dropLast else first :: rest
  | [] => []

def block (source : List Char) : Except LineFault (List Instruction) :=
  blockAfter 0 source

def blocks (source : List Char) : Except LineFault (List (List Instruction)) := do
  return dropEmptyLast (← blocksAfter 0 (splitBlocks (Text.lines source)))

end TwoAddress.Assembly
