/-
# `Text.Blank` — the space characters of Unicode

Listings are cut at blanks and trimmed of them, and a blank is any character
with the Unicode property `White_Space`: the no-break space and the two
separators U+2028 and U+2029 count, the zero-width space U+200B does not.
The class of `Char.isWhitespace` is a small part of it
(`isBlank_of_isWhitespace`).
-/

namespace TwoAddress.Text

/-- The ranges of code points with the property `White_Space`. -/
def blankRanges : List (Nat × Nat) :=
  [(0x09, 0x0D), (0x20, 0x20), (0x85, 0x85), (0xA0, 0xA0), (0x1680, 0x1680),
   (0x2000, 0x200A), (0x2028, 0x2029), (0x202F, 0x202F), (0x205F, 0x205F),
   (0x3000, 0x3000)]

/-- Whether a character is space. -/
def isBlank (c : Char) : Bool :=
  blankRanges.any fun r => decide (r.1 ≤ c.toNat ∧ c.toNat ≤ r.2)

def trimStart (text : List Char) : List Char :=
  text.dropWhile isBlank

def trimEnd (text : List Char) : List Char :=
  (text.reverse.dropWhile isBlank).reverse

/-- The text without the blanks at either end. -/
def trim (text : List Char) : List Char :=
  trimEnd (trimStart text)

theorem isBlank_of_isWhitespace {c : Char} (h : c.isWhitespace) : isBlank c := by
  simp only [Char.isWhitespace, Bool.or_eq_true, decide_eq_true_eq] at h
  rcases h with ((rfl | rfl) | rfl) | rfl <;> decide

@[simp] theorem trim_nil : trim [] = [] := rfl

theorem trim_eq_self {text : List Char} (first : ∀ c ∈ text.head?, isBlank c = false)
    (last : ∀ c ∈ text.getLast?, isBlank c = false) : trim text = text := by
  have start : trimStart text = text := by
    cases text with
    | nil => rfl
    | cons c rest => simp [trimStart, first c (by simp)]
  rw [trim, start, trimEnd]
  cases h : text.reverse with
  | nil => simpa using h.symm
  | cons c rest =>
    have : isBlank c = false := last c (by simp [← List.head?_reverse, h])
    rw [List.dropWhile_cons_of_neg (by simp [this]), ← h, List.reverse_reverse]

end TwoAddress.Text
