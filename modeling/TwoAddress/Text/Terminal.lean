/-
# `Text.Terminal` — text that is safe to show

A log quotes texts that anyone may have written. The characters that a terminal
takes as commands are therefore shown by their number: escape, bell, backspace,
form feed and delete as `\x1b` and so on, the control characters from U+0080 to
U+009F as `\u{9b}` and so on. Blanks and line ends are left alone.
-/

namespace TwoAddress.Text

/-- A number in hexadecimal, with at least two digits. -/
def hex (n : Nat) : List Char :=
  let digits := Nat.toDigits 16 n
  if digits.length < 2 then '0' :: digits else digits

def showChar (c : Char) : List Char :=
  if ['\x07', '\x08', '\x0c', '\x1b', '\x7f'].contains c then '\\' :: 'x' :: hex c.toNat
  else if 0x80 ≤ c.toNat ∧ c.toNat ≤ 0x9F then
    '\\' :: 'u' :: '\x7b' :: hex c.toNat ++ ['\x7d']
  else [c]

/-- A text as it is shown. -/
def showSafe (text : String) : String :=
  String.ofList (text.toList.flatMap showChar)

end TwoAddress.Text
