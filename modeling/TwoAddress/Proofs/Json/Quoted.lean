/-
# `Proofs.Json.Quoted` — strings are read as they were quoted

In quotation marks every character of a string stands for one piece: for itself,
for the character after a backslash, or for an escaped unit (`piece`). The lexer
takes up that piece and nothing else (`run?_escapeChar`), whatever it has read
before, so a string comes back whole (`run?_quote`). Only control characters are
written as units, and those are no halves of surrogate pairs; so no two of them
are ever taken together (`joinPieces?_map_piece`).
-/
import TwoAddress.Json.Printer
import TwoAddress.Json.Token

namespace TwoAddress.Json

namespace Lexer

def run? (l : Lexer) (text : List Char) : Option Lexer :=
  text.foldlM step? l

variable {l l' : Lexer} {tokens : List Token} {pieces : List Piece} {text rest : List Char}
  {c d : Char}

theorem run?_nil (l : Lexer) : l.run? [] = some l := rfl

theorem run?_cons (h : l.step? c = some l') (rest : List Char) :
    l.run? (c :: rest) = l'.run? rest := by
  rw [run?, List.foldlM_cons, h]
  rfl

theorem run?_append (h : l.run? text = some l') (rest : List Char) :
    l.run? (text ++ rest) = l'.run? rest := by
  rw [run?, List.foldlM_append]
  show l.run? text >>= _ = _
  rw [h]
  rfl

/-! ## Steps inside a string -/

theorem step?_char (hquote : c ≠ '"') (hslash : c ≠ '\\') (hcontrol : ¬ c.toNat < 0x20) :
    step? ⟨tokens, .string pieces⟩ c = some ⟨tokens, .string (.char c :: pieces)⟩ := by
  simp only [step?, if_neg hquote, if_neg hslash, if_neg hcontrol]

theorem run?_escaped (hc : c ≠ 'u') (hd : escaped? c = some d) :
    run? ⟨tokens, .string pieces⟩ ['\\', c] = some ⟨tokens, .string (.char d :: pieces)⟩ := by
  have hslash : step? ⟨tokens, .string pieces⟩ '\\' = some ⟨tokens, .escape pieces⟩ := rfl
  have hstep : step? ⟨tokens, .escape pieces⟩ c = some ⟨tokens, .string (.char d :: pieces)⟩ := by
    simp only [step?, if_neg hc, hd]
    rfl
  rw [run?_cons hslash, run?_cons hstep, run?_nil]

theorem step?_digit {missing value n : Nat} (h : Numeral.digit? 16 c = some n) :
    step? ⟨tokens, .unit pieces missing value⟩ c =
      some (if missing ≤ 1 then ⟨tokens, .string (.unit (value * 16 + n) :: pieces)⟩
        else ⟨tokens, .unit pieces (missing - 1) (value * 16 + n)⟩) := by
  simp only [step?, h, Option.map_some]

end Lexer

/-! ## Characters -/

/-- The piece that a character is written as. -/
def piece (c : Char) : Piece :=
  if c.toNat < 0x20 ∧ c ∉ ['\x08', '\t', '\n', '\x0c', '\r'] then .unit c.toNat else .char c

theorem digit?_digitChar {n : Nat} (h : n < 16) :
    Numeral.digit? 16 (Nat.digitChar n) = some n := by
  have table : ∀ n < 16, Numeral.digit? 16 (Nat.digitChar n) = some n := by decide
  exact table n h

namespace Lexer

variable (tokens : List Token) (pieces : List Piece)

theorem run?_escapeUnit {c : Char} (h : c.toNat < 0x20) :
    run? ⟨tokens, .string pieces⟩ (escapeUnit c) =
      some ⟨tokens, .string (.unit c.toNat :: pieces)⟩ := by
  have hhigh : Numeral.digit? 16 (Nat.digitChar (c.toNat / 16)) = some (c.toNat / 16) :=
    digit?_digitChar (by omega)
  have hlow : Numeral.digit? 16 (Nat.digitChar (c.toNat % 16)) = some (c.toNat % 16) :=
    digit?_digitChar (by omega)
  have hzeros : run? ⟨tokens, .string pieces⟩ "\\u00".toList =
      some ⟨tokens, .unit pieces 2 0⟩ := rfl
  have hvalue : (0 * 16 + c.toNat / 16) * 16 + c.toNat % 16 = c.toNat := by omega
  rw [escapeUnit, run?_append hzeros, run?_cons (step?_digit hhigh), if_neg (by decide),
    run?_cons (step?_digit hlow), if_pos (by decide), hvalue, run?_nil]

theorem run?_escapeChar (c : Char) :
    run? ⟨tokens, .string pieces⟩ (escapeChar c) =
      some ⟨tokens, .string (piece c :: pieces)⟩ := by
  unfold escapeChar
  split
  case h_1 => exact run?_escaped (by decide) rfl
  case h_2 => exact run?_escaped (by decide) rfl
  case h_3 => exact run?_escaped (by decide) rfl
  case h_4 => exact run?_escaped (by decide) rfl
  case h_5 => exact run?_escaped (by decide) rfl
  case h_6 => exact run?_escaped (by decide) rfl
  case h_7 => exact run?_escaped (by decide) rfl
  case h_8 hquote hslash hb ht hn hf hr =>
    split
    case isTrue hcontrol =>
      have hlong : c ∉ ['\x08', '\t', '\n', '\x0c', '\r'] := by
        simp only [List.mem_cons, List.not_mem_nil, or_false, not_or]
        exact ⟨hb, ht, hn, hf, hr⟩
      have hpiece : piece c = .unit c.toNat := if_pos ⟨hcontrol, hlong⟩
      rw [hpiece]
      exact run?_escapeUnit tokens pieces hcontrol
    case isFalse hcontrol =>
      have hpiece : piece c = .char c := if_neg fun h => hcontrol h.1
      rw [hpiece, run?_cons (step?_char hquote hslash hcontrol), run?_nil]

theorem run?_escapeChars (cs : List Char) :
    run? ⟨tokens, .string pieces⟩ (cs.flatMap escapeChar) =
      some ⟨tokens, .string ((cs.map piece).reverse ++ pieces)⟩ := by
  induction cs generalizing pieces with
  | nil => rfl
  | cons c cs ih =>
      rw [List.flatMap_cons, run?_append (run?_escapeChar tokens pieces c), ih]
      simp

end Lexer

/-! ## Strings -/

theorem joinPieces?_char (c : Char) (rest : List Piece) :
    joinPieces? (.char c :: rest) = (joinPieces? rest).map (c :: ·) := rfl

theorem joinPieces?_unit {n : Nat} (h : n < 0xD800) (rest : List Piece) :
    joinPieces? (.unit n :: rest) = (joinPieces? rest).map (Char.ofNat n :: ·) := by
  have hhigh : isHighSurrogate n = false := decide_eq_false (by omega)
  have hlow : isLowSurrogate n = false := decide_eq_false (by omega)
  rcases rest with _ | ⟨_ | m, rest⟩
  · simp [joinPieces?, hhigh, hlow]
  · simp [joinPieces?, hhigh, hlow]
  · simp [joinPieces?, hhigh, hlow]

theorem joinPieces?_map_piece (cs : List Char) : joinPieces? (cs.map piece) = some cs := by
  induction cs with
  | nil => rfl
  | cons c cs ih =>
      rw [List.map_cons, piece]
      split
      case isTrue h =>
        rw [joinPieces?_unit (Nat.lt_trans h.1 (by decide)), ih, Option.map_some,
          Char.ofNat_toNat]
      case isFalse => rw [joinPieces?_char, ih, Option.map_some]

/-- A string in quotation marks is one token. -/
theorem Lexer.run?_quote (tokens : List Token) (s : String) (rest : List Char) :
    Lexer.run? ⟨tokens, .between⟩ (quote s ++ rest) =
      Lexer.run? ⟨.text (some s) :: tokens, .between⟩ rest := by
  have hopen : Lexer.step? ⟨tokens, .between⟩ '"' = some ⟨tokens, .string []⟩ := rfl
  have hclose : Lexer.step? ⟨tokens, .string (s.toList.map piece).reverse⟩ '"' =
      some ⟨.text (some s) :: tokens, .between⟩ := by
    show some (Lexer.mk (.text ((joinPieces? _).map String.ofList) :: tokens) .between) = _
    rw [List.reverse_reverse, joinPieces?_map_piece, Option.map_some, String.ofList_toList]
  rw [quote, List.cons_append, List.cons_append, List.append_assoc, Lexer.run?_cons hopen,
    Lexer.run?_append (Lexer.run?_escapeChars tokens [] s.toList), List.append_nil,
    List.singleton_append, Lexer.run?_cons hclose]

end TwoAddress.Json
