/-
# `Json.Token` — cutting a JSON text into tokens

The text is read character by character, and all that is remembered is the
token at hand (`Mode`). A token is a punctuation mark, a string, or a word: a
row of letters, digits, points and signs. A word is judged as a whole where it
ends. It has to be `null`, `true`, `false` or a number; so `01`, `1.`, `+1` and
`nulltrue` are refused.

Inside a string a character is one of the text or an escaped UTF-16 unit, and
two units that form a surrogate pair are one character. A control character
below U+0020 has to be escaped.
-/
import TwoAddress.Json.Basic
import TwoAddress.Text.Numeral

namespace TwoAddress.Json

/-- The smallest unit of a JSON text. -/
inductive Token where
  | beginArray
  | endArray
  | beginObject
  | endObject
  | comma
  | colon
  /-- A string, without content if that is not Unicode. -/
  | text (content : Option String)
  /-- A constant or a number. -/
  | word (value : Json)

/-! ## Strings -/

/-- A character of a string or an escaped UTF-16 unit. -/
inductive Piece where
  | char (c : Char)
  | unit (n : Nat)
deriving DecidableEq, Repr

/-- The character that stands for another after a backslash. -/
def escaped? : Char → Option Char
  | '"' => some '"'
  | '\\' => some '\\'
  | '/' => some '/'
  | 'b' => some '\x08'
  | 'f' => some '\x0c'
  | 'n' => some '\n'
  | 'r' => some '\r'
  | 't' => some '\t'
  | _ => none

def isHighSurrogate (n : Nat) : Bool :=
  decide (0xD800 ≤ n ∧ n < 0xDC00)

def isLowSurrogate (n : Nat) : Bool :=
  decide (0xDC00 ≤ n ∧ n < 0xE000)

def ofSurrogates (high low : Nat) : Char :=
  Char.ofNat (0x10000 + (high - 0xD800) * 0x400 + (low - 0xDC00))

/-- The text that pieces stand for, unless half of a surrogate pair is among
them. -/
def joinPieces? : List Piece → Option (List Char)
  | [] => some []
  | .char c :: rest => (joinPieces? rest).map (c :: ·)
  | .unit high :: .unit low :: rest =>
      if isHighSurrogate high ∧ isLowSurrogate low then
        (joinPieces? rest).map (ofSurrogates high low :: ·)
      else if isHighSurrogate high ∨ isLowSurrogate high then none
      else (joinPieces? (.unit low :: rest)).map (Char.ofNat high :: ·)
  | .unit n :: rest =>
      if isHighSurrogate n ∨ isLowSurrogate n then none
      else (joinPieces? rest).map (Char.ofNat n :: ·)

/-! ## Words -/

/-- Whether a text is a row of at least one digit. -/
def isDigits (text : List Char) : Bool :=
  !text.isEmpty && text.all Char.isDigit

/-- Whether a text is a number without sign, fraction and exponent. -/
def isWhole : List Char → Bool
  | ['0'] => true
  | '0' :: _ => false
  | digits => isDigits digits

/-- Whether a text is an exponent without its letter. -/
def isExponent : List Char → Bool
  | '+' :: digits | '-' :: digits => isDigits digits
  | digits => isDigits digits

/-- Whether a text is a number without sign. -/
def isUnsigned (text : List Char) : Bool :=
  let (mantissa, exponent) := text.span fun c => c != 'e' && c != 'E'
  let (whole, fraction) := mantissa.span (· != '.')
  isWhole whole && (fraction.isEmpty || isDigits (fraction.drop 1))
    && (exponent.isEmpty || isExponent (exponent.drop 1))

/-- The value of a number. Minus zero is no integer. -/
def number? (text : List Char) : Option Json :=
  match text with
  | ['-', '0'] => some .other
  | '-' :: digits =>
      if isWhole digits then (Numeral.natural? 10 digits).map fun n => .int (-(n : Int))
      else if isUnsigned digits then some .other
      else none
  | digits =>
      if isWhole digits then (Numeral.natural? 10 digits).map fun n => .int n
      else if isUnsigned digits then some .other
      else none

def word? (text : List Char) : Option Json :=
  if text = "null".toList then some .null
  else if text = "true".toList then some (.bool true)
  else if text = "false".toList then some (.bool false)
  else number? text

/-- Whether a character may be part of a word. -/
def isWordChar (c : Char) : Bool :=
  c.isAlphanum || c == '+' || c == '-' || c == '.'

/-- Whether a character may stand between any two tokens. -/
def isSpace (c : Char) : Bool :=
  c == ' ' || c == '\t' || c == '\n' || c == '\r'

/-! ## The lexer -/

/-- What is being read. What has been read of it is kept last character
first. -/
inductive Mode where
  | between
  | word (letters : List Char)
  | string (pieces : List Piece)
  /-- After a backslash. -/
  | escape (pieces : List Piece)
  /-- In an escaped unit of which `missing` digits are still to come. -/
  | unit (pieces : List Piece) (missing value : Nat)
deriving DecidableEq, Repr

/-- The tokens read so far, the last one first, and what is being read. -/
structure Lexer where
  tokens : List Token
  mode : Mode

namespace Lexer

def start : Lexer := ⟨[], .between⟩

/-- Reads a character between two tokens. -/
def begin? (tokens : List Token) (c : Char) : Option Lexer :=
  if isSpace c then some ⟨tokens, .between⟩
  else if isWordChar c then some ⟨tokens, .word [c]⟩
  else
    match c with
    | '"' => some ⟨tokens, .string []⟩
    | '[' => some ⟨.beginArray :: tokens, .between⟩
    | ']' => some ⟨.endArray :: tokens, .between⟩
    | '\x7b' => some ⟨.beginObject :: tokens, .between⟩
    | '\x7d' => some ⟨.endObject :: tokens, .between⟩
    | ',' => some ⟨.comma :: tokens, .between⟩
    | ':' => some ⟨.colon :: tokens, .between⟩
    | _ => none

def endWord? (tokens : List Token) (letters : List Char) : Option (List Token) :=
  (word? letters.reverse).map (.word · :: tokens)

def step? (l : Lexer) (c : Char) : Option Lexer :=
  match l.mode with
  | .between => begin? l.tokens c
  | .word letters =>
      if isWordChar c then some ⟨l.tokens, .word (c :: letters)⟩
      else (endWord? l.tokens letters).bind (begin? · c)
  | .string pieces =>
      if c = '"' then
        some ⟨.text ((joinPieces? pieces.reverse).map String.ofList) :: l.tokens, .between⟩
      else if c = '\\' then some ⟨l.tokens, .escape pieces⟩
      else if c.toNat < 0x20 then none
      else some ⟨l.tokens, .string (.char c :: pieces)⟩
  | .escape pieces =>
      if c = 'u' then some ⟨l.tokens, .unit pieces 4 0⟩
      else (escaped? c).map fun c => ⟨l.tokens, .string (.char c :: pieces)⟩
  | .unit pieces missing value =>
      (Numeral.digit? 16 c).map fun d =>
        let value := value * 16 + d
        if missing ≤ 1 then ⟨l.tokens, .string (.unit value :: pieces)⟩
        else ⟨l.tokens, .unit pieces (missing - 1) value⟩

/-- The tokens, if none is left unfinished. -/
def finish? (l : Lexer) : Option (List Token) :=
  match l.mode with
  | .between => some l.tokens.reverse
  | .word letters => (endWord? l.tokens letters).map List.reverse
  | _ => none

end Lexer

def tokens? (text : List Char) : Option (List Token) :=
  (text.foldlM Lexer.step? Lexer.start).bind Lexer.finish?

end TwoAddress.Json
