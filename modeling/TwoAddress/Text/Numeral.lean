/-
# `Text.Numeral` — numbers in listings

A number is read to its exact value whatever its length, and only then
measured against the word that is to hold it. So a long row of zeros is
harmless and a long row of nines is refused: it is never cut to its low digits.

Integers are written in decimal. They are read in decimal, or after `0x` in
hexadecimal, where a minus sign may stand before the `0x` and one more sign
after it: `-0x10`, `0x-10` and `-0x+10` all read as `-16`.
-/
import TwoAddress.Word

namespace TwoAddress.Numeral

/-! ## Writing -/

def ofNat (n : Nat) : List Char :=
  Nat.toDigits 10 n

/-- An integer in decimal, with a minus sign if it is negative. -/
def ofInt (i : Int) : List Char :=
  if i < 0 then '-' :: ofNat i.natAbs else ofNat i.natAbs

/-! ## Reading -/

/-- The value of a digit, for bases up to sixteen. -/
def digit? (base : Nat) (c : Char) : Option Nat :=
  let value :=
    if c.isDigit then c.toNat - '0'.toNat
    else if 'a' ≤ c ∧ c ≤ 'f' then c.toNat - 'a'.toNat + 10
    else if 'A' ≤ c ∧ c ≤ 'F' then c.toNat - 'A'.toNat + 10
    else base
  if value < base then some value else none

/-- The value of a row of digits read after digits of value `high`. -/
def digitsAfter? (base : Nat) : (high : Nat) → List Char → Option Nat
  | high, [] => some high
  | high, c :: rest =>
      match digit? base c with
      | none => none
      | some d => digitsAfter? base (high * base + d) rest

/-- The value of a row of at least one digit. -/
def natural? (base : Nat) : List Char → Option Nat
  | [] => none
  | digits => digitsAfter? base 0 digits

/-- The value of a row of digits with at most one sign before it. -/
def signed? (base : Nat) : List Char → Option Int
  | '-' :: digits => (natural? base digits).map fun n => -(n : Int)
  | '+' :: digits => (natural? base digits).map fun n => (n : Int)
  | digits => (natural? base digits).map fun n => (n : Int)

/-- The value of a signed number in decimal, or after `0x` in hexadecimal. -/
def magnitude? : List Char → Option Int
  | '0' :: 'x' :: digits => signed? 16 digits
  | digits => signed? 10 digits

/-- The value of an integer as listings spell it. -/
def integer? : List Char → Option Int
  | '-' :: body => (magnitude? body).map (- ·)
  | body => magnitude? body

/-- The 64-bit immediate that a text spells. -/
def int64? (text : List Char) : Option Int64 :=
  (integer? text).bind TwoAddress.int64?

/-- The byte that a text spells in decimal, with or without a plus sign. -/
def uint8? : List Char → Option UInt8
  | '+' :: digits => (natural? 10 digits).bind fun n => TwoAddress.uint8? n
  | digits => (natural? 10 digits).bind fun n => TwoAddress.uint8? n

end TwoAddress.Numeral
