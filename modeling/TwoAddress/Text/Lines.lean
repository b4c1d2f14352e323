/-
# `Text.Lines` — cutting a text into lines

A line ends at a line feed, and a carriage return right before that line feed
belongs to the line end. The line end of the last line may be missing. No
other character ends a line.
-/

namespace TwoAddress.Text

/-- The lines of a text, without their line ends. -/
def lines : List Char → List (List Char)
  | [] => []
  | '\n' :: rest => [] :: lines rest
  | '\r' :: '\n' :: rest => [] :: lines rest
  | c :: rest =>
      match lines rest with
      | [] => [[c]]
      | line :: more => (c :: line) :: more

/-- A text of the given lines, each with a line feed after it. -/
def unlines (ls : List (List Char)) : List Char :=
  ls.flatMap (· ++ ['\n'])

end TwoAddress.Text
