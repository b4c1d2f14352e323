/-
# `Proofs.Json.Tokens` — the tokens of a written value

What is written for a value is its tokens, with blanks and line ends between
them (`Json.tokens`). The lexer starts a value between two tokens and is between
two tokens again after it, with exactly these tokens added (`run?_prettyAt`).
Only a word needs something behind it to end, and in a written value something
always stands there: a comma, a line end, or at the very end of the text nothing,
which does as well (`tokens?_concat_newLine`).
-/
import Mathlib.Data.List.Basic
import TwoAddress.Proofs.Json.Quoted
import TwoAddress.Proofs.Text.Numeral

namespace TwoAddress.Json

/-! ## Words -/

theorem isWhole_of_digits {c d : Char} {ds : List Char} (hc : c ≠ '0')
    (h : Numeral.Digits (c :: d :: ds)) : isWhole (c :: d :: ds) = true := by
  have hall : (c :: d :: ds).all Char.isDigit = true := List.all_eq_true.mpr h.isDigit
  unfold isWhole
  split
  case h_1 heq => exact nomatch heq
  case h_2 heq => exact absurd (List.cons.inj heq).1 hc
  case h_3 => simpa [isDigits] using hall

theorem head?_ofNat (n : Nat) (hn : n ≠ 0) : (Numeral.ofNat n).head? ≠ some '0' := by
  induction n using Nat.strongRecOn with
  | ind n ih =>
      rw [Numeral.ofNat, Nat.toDigits_eq_if (by decide)]
      split
      case isTrue hlt =>
        have table : ∀ n < 10, n ≠ 0 → [Nat.digitChar n].head? ≠ some '0' := by decide
        exact table n hlt hn
      case isFalse hge =>
        rw [List.head?_append_of_ne_nil _ Nat.toDigits_ne_nil]
        exact ih (n / 10) (by omega) (by omega)

theorem isWhole_ofNat (n : Nat) : isWhole (Numeral.ofNat n) = true := by
  have hdigits := Numeral.digits_ofNat n
  by_cases hn : n = 0
  · subst hn
    rfl
  · have hhead := head?_ofNat n hn
    match h : Numeral.ofNat n with
    | [] => exact absurd h hdigits.ne_nil
    | [c] =>
        rw [h] at hdigits hhead
        have hc : c ≠ '0' := fun hc => hhead (congrArg some hc)
        have hdigit : c.isDigit = true := hdigits.isDigit c List.mem_cons_self
        unfold isWhole
        split
        case h_1 heq => rfl
        case h_2 heq => exact absurd (List.cons.inj heq).1 hc
        case h_3 => simp [isDigits, hdigit]
    | c :: d :: ds =>
        rw [h] at hdigits hhead
        exact isWhole_of_digits (fun hc => hhead (congrArg some hc)) hdigits

theorem number?_negative {n : Nat} (hn : n ≠ 0) :
    number? ('-' :: Numeral.ofNat n) = some (.int (-(n : Int))) := by
  unfold number?
  split
  case h_1 heq =>
    have hzero : Numeral.ofNat n = ['0'] := (List.cons.inj heq).2
    exact absurd (congrArg List.head? hzero) (head?_ofNat n hn)
  case h_2 digits _ heq =>
    obtain rfl := (List.cons.inj heq).2
    rw [if_pos (isWhole_ofNat n), Numeral.natural?_ofNat]
    rfl
  case h_3 _ hminus => exact absurd rfl (hminus _)

theorem number?_ofNat (n : Nat) : number? (Numeral.ofNat n) = some (.int n) := by
  have hminus : ∀ rest, Numeral.ofNat n ≠ '-' :: rest := by
    intro rest h
    have hmem : '-' ∈ Numeral.ofNat n := h ▸ List.mem_cons_self
    exact absurd ((Numeral.digits_ofNat n).isDigit _ hmem) (by decide)
  unfold number?
  split
  case h_1 heq => exact absurd heq (hminus _)
  case h_2 heq => exact absurd heq (hminus _)
  case h_3 =>
    rw [if_pos (isWhole_ofNat n), Numeral.natural?_ofNat]
    rfl

theorem number?_ofInt (i : Int) : number? (Numeral.ofInt i) = some (.int i) := by
  rw [Numeral.ofInt]
  split
  case isTrue h =>
    rw [number?_negative (by omega)]
    congr 2
    omega
  case isFalse h =>
    rw [number?_ofNat]
    congr 2
    omega

theorem digit_or_minus_of_mem_ofInt {i : Int} {c : Char} (h : c ∈ Numeral.ofInt i) :
    c.isDigit = true ∨ c = '-' := by
  rw [Numeral.ofInt] at h
  split at h
  case isTrue =>
    rcases List.mem_cons.mp h with rfl | h
    · exact .inr rfl
    · exact .inl ((Numeral.digits_ofNat _).isDigit c h)
  case isFalse => exact .inl ((Numeral.digits_ofNat _).isDigit c h)

theorem word?_ofInt (i : Int) : word? (Numeral.ofInt i) = some (.int i) := by
  -- none of the three constants is made of digits and minus signs
  have hne {w : List Char} {c : Char} (hc : c ∈ w) (hdigit : c.isDigit = false)
      (hminus : c ≠ '-') : Numeral.ofInt i ≠ w := by
    rintro rfl
    rcases digit_or_minus_of_mem_ofInt hc with h | h
    · exact nomatch hdigit.symm.trans h
    · exact hminus h
  rw [word?, if_neg (hne (c := 'n') (by decide) rfl (by decide)),
    if_neg (hne (c := 't') (by decide) rfl (by decide)),
    if_neg (hne (c := 'f') (by decide) rfl (by decide)), number?_ofInt]

theorem isWordChar_ofInt {i : Int} {c : Char} (h : c ∈ Numeral.ofInt i) :
    isWordChar c = true := by
  rcases digit_or_minus_of_mem_ofInt h with h | rfl
  · simp [isWordChar, Char.isAlphanum, h]
  · rfl

/-! ## Steps between two tokens -/

/-- Something that ends a word comes next. -/
def Delimited (rest : List Char) : Prop :=
  ∃ c more, rest = c :: more ∧ isWordChar c = false

theorem delimited_cons {c : Char} (h : isWordChar c = false) (more : List Char) :
    Delimited (c :: more) := ⟨c, more, rfl, h⟩

namespace Lexer

variable {tokens : List Token} {letters w rest : List Char} {v : Json}

theorem run?_letters (h : ∀ c ∈ w, isWordChar c = true) :
    run? ⟨tokens, .word letters⟩ w = some ⟨tokens, .word (w.reverse ++ letters)⟩ := by
  induction w generalizing letters with
  | nil => rfl
  | cons c w ih =>
      obtain ⟨hc, hw⟩ := List.forall_mem_cons.mp h
      have hstep : step? ⟨tokens, .word letters⟩ c = some ⟨tokens, .word (c :: letters)⟩ := by
        simp only [step?, hc, if_true]
      rw [run?_cons hstep, ih hw, List.reverse_cons, List.append_assoc, List.singleton_append]

theorem run?_word (hv : word? w = some v) (hne : w ≠ []) (h : w.all isWordChar = true)
    (hrest : Delimited rest) :
    run? ⟨tokens, .between⟩ (w ++ rest) = run? ⟨.word v :: tokens, .between⟩ rest := by
  obtain ⟨d, more, rfl, hd⟩ := hrest
  cases w with
  | nil => exact absurd rfl hne
  | cons c w =>
      obtain ⟨hc, hw⟩ := List.forall_mem_cons.mp (List.all_eq_true.mp h)
      have hspace : isSpace c = false := by
        have hblank : [' ', '\t', '\n', '\r'].any isWordChar = false := rfl
        refine Bool.eq_false_iff.mpr ?_
        intro hs
        have hmem : c ∈ [' ', '\t', '\n', '\r'] := by
          simpa [isSpace, or_assoc] using hs
        exact List.any_eq_false.mp hblank c hmem hc
      have hfirst : step? ⟨tokens, .between⟩ c = some ⟨tokens, .word [c]⟩ := by
        simp [step?, begin?, hspace, hc]
      have hend : step? ⟨tokens, .word (w.reverse ++ [c])⟩ d =
          step? ⟨.word v :: tokens, .between⟩ d := by
        simp [step?, hd, endWord?, hv]
      rw [List.cons_append, run?_cons hfirst, run?_append (run?_letters hw), run?, List.foldlM_cons,
        hend, ← List.foldlM_cons]
      rfl

theorem run?_newLine (n : Nat) (rest : List Char) :
    run? ⟨tokens, .between⟩ (newLine n ++ rest) = run? ⟨tokens, .between⟩ rest := by
  have hblanks : run? ⟨tokens, .between⟩ (List.replicate n ' ' ++ rest) =
      run? ⟨tokens, .between⟩ rest := by
    induction n with
    | zero => rfl
    | succ n ih => exact ih
  exact hblanks

end Lexer

/-! ## Written values -/

mutual

def tokens : Json → List Token
  | .str s => [.text (some s)]
  | .arr [] => [.beginArray, .endArray]
  | .arr (item :: rest) => .beginArray :: (tokens item ++ (itemTokens rest ++ [.endArray]))
  | .obj [] => [.beginObject, .endObject]
  | .obj ((name, value) :: rest) =>
      .beginObject :: .text (some name) :: .colon ::
        (tokens value ++ (memberTokens rest ++ [.endObject]))
  | .null => [.word .null]
  | .bool b => [.word (.bool b)]
  | .int n => [.word (.int n)]
  | .other => [.word .other]

/-- The tokens of the elements of an array after the first. -/
def itemTokens : List Json → List Token
  | [] => []
  | item :: rest => .comma :: (tokens item ++ itemTokens rest)

/-- The tokens of the members of an object after the first. -/
def memberTokens : List (String × Json) → List Token
  | [] => []
  | (name, value) :: rest =>
      .comma :: .text (some name) :: .colon :: (tokens value ++ memberTokens rest)

end

theorem delimited_newLine (n : Nat) (rest : List Char) : Delimited (newLine n ++ rest) :=
  delimited_cons rfl _

theorem delimited_prettyItems (n : Nat) (items : List Json) {rest : List Char}
    (h : Delimited rest) : Delimited (prettyItems n items ++ rest) := by
  cases items with
  | nil => exact h
  | cons item items => exact delimited_cons rfl _

theorem delimited_prettyMembers (n : Nat) (members : List (String × Json)) {rest : List Char}
    (h : Delimited rest) : Delimited (prettyMembers n members ++ rest) := by
  cases members with
  | nil => exact h
  | cons member members => exact delimited_cons rfl _

mutual

/-- The lexer is between two tokens again after a value, with the tokens of the
value added. -/
theorem run?_prettyAt (ts : List Token) (indent : Nat) :
    ∀ (j : Json) (rest : List Char), Delimited rest →
      Lexer.run? ⟨ts, .between⟩ (prettyAt indent j ++ rest) =
        Lexer.run? ⟨(tokens j).reverse ++ ts, .between⟩ rest
  | .null, rest, h => Lexer.run?_word (w := "null".toList) rfl (by decide) rfl h
  | .bool true, rest, h => Lexer.run?_word (w := "true".toList) rfl (by decide) rfl h
  | .bool false, rest, h => Lexer.run?_word (w := "false".toList) rfl (by decide) rfl h
  | .other, rest, h => Lexer.run?_word (w := "-0".toList) rfl (by decide) rfl h
  | .int n, rest, h => by
      have hne : Numeral.ofInt n ≠ [] := by
        rw [Numeral.ofInt]
        split
        · exact List.cons_ne_nil _ _
        · exact (Numeral.digits_ofNat _).ne_nil
      have hchars : (Numeral.ofInt n).all isWordChar = true :=
        List.all_eq_true.mpr fun c hc => isWordChar_ofInt hc
      exact Lexer.run?_word (word?_ofInt n) hne hchars h
  | .str s, rest, _ => Lexer.run?_quote ts s rest
  | .arr [], rest, _ => rfl
  | .arr (item :: items), rest, h => by
      have hopen : Lexer.step? ⟨ts, .between⟩ '[' = some ⟨.beginArray :: ts, .between⟩ := rfl
      have hclose (us : List Token) :
          Lexer.step? ⟨us, .between⟩ ']' = some ⟨.endArray :: us, .between⟩ := rfl
      have hend : Delimited (newLine indent ++ ']' :: rest) := delimited_newLine _ _
      simp only [prettyAt, tokens, List.cons_append, List.append_assoc, List.nil_append]
      rw [Lexer.run?_cons hopen, Lexer.run?_newLine,
        run?_prettyAt _ _ item _ (delimited_prettyItems _ items hend),
        run?_prettyItems _ _ items _ hend, Lexer.run?_newLine, Lexer.run?_cons (hclose _)]
      simp
  | .obj [], rest, _ => rfl
  | .obj ((name, value) :: members), rest, h => by
      have hopen : Lexer.step? ⟨ts, .between⟩ '\x7b' = some ⟨.beginObject :: ts, .between⟩ := rfl
      have hclose (us : List Token) :
          Lexer.step? ⟨us, .between⟩ '\x7d' = some ⟨.endObject :: us, .between⟩ := rfl
      have hcolon (us : List Token) :
          Lexer.run? ⟨us, .between⟩ ": ".toList = some ⟨.colon :: us, .between⟩ := rfl
      have hend : Delimited (newLine indent ++ '\x7d' :: rest) := delimited_newLine _ _
      simp only [prettyAt, tokens, List.cons_append, List.append_assoc, List.nil_append]
      rw [Lexer.run?_cons hopen, Lexer.run?_newLine, Lexer.run?_quote, Lexer.run?_append (hcolon _),
        run?_prettyAt _ _ value _ (delimited_prettyMembers _ members hend),
        run?_prettyMembers _ _ members _ hend, Lexer.run?_newLine, Lexer.run?_cons (hclose _)]
      simp

theorem run?_prettyItems (ts : List Token) (indent : Nat) :
    ∀ (items : List Json) (rest : List Char), Delimited rest →
      Lexer.run? ⟨ts, .between⟩ (prettyItems indent items ++ rest) =
        Lexer.run? ⟨(itemTokens items).reverse ++ ts, .between⟩ rest
  | [], rest, _ => rfl
  | item :: items, rest, h => by
      have hcomma : Lexer.step? ⟨ts, .between⟩ ',' = some ⟨.comma :: ts, .between⟩ := rfl
      simp only [prettyItems, itemTokens, List.cons_append, List.append_assoc]
      rw [Lexer.run?_cons hcomma, Lexer.run?_newLine,
        run?_prettyAt _ _ item _ (delimited_prettyItems _ items h), run?_prettyItems _ _ items _ h]
      simp

theorem run?_prettyMembers (ts : List Token) (indent : Nat) :
    ∀ (members : List (String × Json)) (rest : List Char), Delimited rest →
      Lexer.run? ⟨ts, .between⟩ (prettyMembers indent members ++ rest) =
        Lexer.run? ⟨(memberTokens members).reverse ++ ts, .between⟩ rest
  | [], rest, _ => rfl
  | (name, value) :: members, rest, h => by
      have hcomma : Lexer.step? ⟨ts, .between⟩ ',' = some ⟨.comma :: ts, .between⟩ := rfl
      have hcolon (us : List Token) :
          Lexer.run? ⟨us, .between⟩ ": ".toList = some ⟨.colon :: us, .between⟩ := rfl
      simp only [prettyMembers, memberTokens, List.cons_append, List.append_assoc]
      rw [Lexer.run?_cons hcomma, Lexer.run?_newLine, Lexer.run?_quote,
        Lexer.run?_append (hcolon _),
        run?_prettyAt _ _ value _ (delimited_prettyMembers _ members h),
        run?_prettyMembers _ _ members _ h]
      simp

end

/-! ## Whole texts -/

/-- A line end behind a text changes nothing: it ends a last word as the end of the
text does. -/
theorem tokens?_concat_newLine (text : List Char) :
    tokens? (text ++ ['\n']) = tokens? text := by
  rw [tokens?, tokens?, List.foldlM_append]
  cases h : text.foldlM Lexer.step? Lexer.start with
  | none => rfl
  | some l =>
      obtain ⟨ts, mode⟩ := l
      show (Lexer.step? ⟨ts, mode⟩ '\n' >>= pure).bind Lexer.finish? = _
      cases mode with
      | between => rfl
      | word letters =>
          show (((Lexer.endWord? ts letters).bind (Lexer.begin? · '\n')) >>= pure).bind _ =
            (Lexer.endWord? ts letters).map List.reverse
          cases Lexer.endWord? ts letters <;> rfl
      | string pieces => rfl
      | escape pieces => rfl
      | unit pieces missing value => rfl

/-- A written value is cut into its tokens. -/
theorem tokens?_pretty (j : Json) : tokens? j.pretty = some (tokens j) := by
  have hrun : Lexer.run? ⟨[], .between⟩ (prettyAt 0 j ++ ['\n']) =
      some ⟨(tokens j).reverse, .between⟩ := by
    rw [run?_prettyAt [] 0 j _ (delimited_cons rfl []), List.append_nil]
    rfl
  have htokens : tokens? (j.pretty ++ ['\n']) =
      (Lexer.run? ⟨[], .between⟩ (prettyAt 0 j ++ ['\n'])).bind Lexer.finish? := rfl
  rw [← tokens?_concat_newLine, htokens, hrun]
  exact congrArg some (tokens j).reverse_reverse

/-- Behind a written value nothing may stand that begins no token. -/
theorem tokens?_pretty_append (j : Json) {c : Char} (hc : ∀ ts, Lexer.begin? ts c = none)
    (rest : List Char) : tokens? (j.pretty ++ '\n' :: c :: rest) = none := by
  have hspace (ts : List Token) : Lexer.step? ⟨ts, .between⟩ '\n' = some ⟨ts, .between⟩ := rfl
  have hstop (ts : List Token) : Lexer.run? ⟨ts, .between⟩ (c :: rest) = none := by
    rw [Lexer.run?, List.foldlM_cons]
    simp only [Lexer.step?, hc]
    rfl
  have hrun : Lexer.run? ⟨[], .between⟩ (prettyAt 0 j ++ '\n' :: c :: rest) = none := by
    rw [run?_prettyAt [] 0 j _ (delimited_cons rfl _), Lexer.run?_cons (hspace _), hstop]
  exact congrArg (·.bind Lexer.finish?) hrun

end TwoAddress.Json
