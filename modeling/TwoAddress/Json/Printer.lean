/-
# `Json.Printer` — JSON texts for people

Every element of an array and every member of an object stands on a line of its
own, two blanks further in than what it belongs to; an empty array or object is
written without a line end. In a string only what has to be escaped is.
-/
import TwoAddress.Json.Basic
import TwoAddress.Text.Numeral

namespace TwoAddress.Json

/-- A control character as an escaped unit. -/
def escapeUnit (c : Char) : List Char :=
  "\\u00".toList ++ [Nat.digitChar (c.toNat / 16), Nat.digitChar (c.toNat % 16)]

def escapeChar (c : Char) : List Char :=
  match c with
  | '"' => ['\\', '"']
  | '\\' => ['\\', '\\']
  | '\x08' => ['\\', 'b']
  | '\t' => ['\\', 't']
  | '\n' => ['\\', 'n']
  | '\x0c' => ['\\', 'f']
  | '\r' => ['\\', 'r']
  | c => if c.toNat < 0x20 then escapeUnit c else [c]

def quote (s : String) : List Char :=
  '"' :: s.toList.flatMap escapeChar ++ ['"']

/-- A line end and the indentation of the next line. -/
def newLine (indent : Nat) : List Char :=
  '\n' :: List.replicate indent ' '

mutual

/-- A value whose first line is indented by `indent` blanks. -/
def prettyAt (indent : Nat) : Json → List Char
  | .null => "null".toList
  | .bool b => (if b then "true" else "false").toList
  | .int n => Numeral.ofInt n
  | .str s => quote s
  | .arr [] => "[]".toList
  | .arr (item :: rest) =>
      '[' :: newLine (indent + 2) ++ prettyAt (indent + 2) item
        ++ prettyItems (indent + 2) rest ++ newLine indent ++ [']']
  | .obj [] => ['\x7b', '\x7d']
  | .obj ((name, value) :: rest) =>
      '\x7b' :: newLine (indent + 2) ++ quote name ++ ": ".toList ++ prettyAt (indent + 2) value
        ++ prettyMembers (indent + 2) rest ++ newLine indent ++ ['\x7d']
  | .other => "-0".toList

/-- The elements of an array after the first. -/
def prettyItems (indent : Nat) : List Json → List Char
  | [] => []
  | item :: rest =>
      ',' :: newLine indent ++ prettyAt indent item ++ prettyItems indent rest

/-- The members of an object after the first. -/
def prettyMembers (indent : Nat) : List (String × Json) → List Char
  | [] => []
  | (name, value) :: rest =>
      ',' :: newLine indent ++ quote name ++ ": ".toList ++ prettyAt indent value
        ++ prettyMembers indent rest

end

def pretty (j : Json) : List Char :=
  prettyAt 0 j

end TwoAddress.Json
