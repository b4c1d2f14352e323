/-
# `Proofs.Text.Words` — texts that survive trimming and cutting

Whatever a listing is made of is written in words: rows of visible ASCII
characters, none of which ends an operand, opens or closes a bracket or starts
a comment (`Solid`). Readers trim a text of the blanks around it and cut it at
the first character of a kind. Trimming leaves a text alone that has a visible
character at either end (`Edged`), and a cut takes a whole word off.
-/
import Mathlib.Data.List.Basic
import Mathlib.Data.List.TakeDrop
import Mathlib.Data.List.TakeWhile
import TwoAddress.Proofs.Text.Numeral
import TwoAddress.Text.Blank

namespace TwoAddress.Text

variable {c : Char} {u v w text rest : List Char} {p : Char → Bool}

/-! ## Characters of words -/

/-- A visible ASCII character that has no meaning of its own in a listing. -/
def Solid (c : Char) : Prop :=
  (0x21 ≤ c.toNat ∧ c.toNat ≤ 0x7E) ∧ c ∉ [',', '[', ']', '#']

instance : DecidablePred Solid := fun _ => inferInstanceAs (Decidable (_ ∧ _))

theorem isBlank_of_visible (h : 0x21 ≤ c.toNat ∧ c.toNat ≤ 0x7E) : isBlank c = false := by
  simp only [isBlank, blankRanges, List.any_cons, List.any_nil, Bool.or_eq_false_iff,
    decide_eq_false_iff_not, and_true]
  omega

theorem Solid.isBlank (h : Solid c) : isBlank c = false :=
  isBlank_of_visible h.1

theorem Solid.ne {d : Char} (h : Solid c) (hd : d ∈ [',', '[', ']', '#']) : c ≠ d := by
  rintro rfl
  exact h.2 hd

theorem solid_of_isDigit (h : c.isDigit = true) : Solid c := by
  obtain ⟨hzero, hnine⟩ := Char.isDigit_iff_toNat.mp h
  refine ⟨⟨Nat.le_trans (by decide) hzero, Nat.le_trans hnine (by decide)⟩, ?_⟩
  intro hc
  simp only [List.mem_cons, List.not_mem_nil, or_false] at hc
  rcases hc with rfl | rfl | rfl | rfl <;> exact absurd h (by decide)

theorem solid_ofNat (n : Nat) : ∀ c ∈ Numeral.ofNat n, Solid c :=
  fun c h => solid_of_isDigit ((Numeral.digits_ofNat n).isDigit c h)

theorem solid_ofInt (i : Int) : ∀ c ∈ Numeral.ofInt i, Solid c := by
  rw [Numeral.ofInt]
  split
  case isTrue => exact List.forall_mem_cons.mpr ⟨by decide, solid_ofNat _⟩
  case isFalse => exact solid_ofNat _

/-! ## Trimming -/

/-- The text begins and ends with characters that are no blanks. -/
structure Edged (text : List Char) : Prop where
  ne_nil : text ≠ []
  first : ∀ c ∈ text.head?, isBlank c = false
  last : ∀ c ∈ text.getLast?, isBlank c = false

theorem Edged.trim_eq (h : Edged text) : trim text = text :=
  trim_eq_self h.first h.last

theorem trim_cons_blank (h : isBlank c = true) (text : List Char) : trim (c :: text) = trim text := by
  rw [trim, trim, trimStart, trimStart, List.dropWhile_cons_of_pos h]

theorem trim_append_blank (h : isBlank c = true) (text : List Char) :
    trim (text ++ [c]) = trim text := by
  have hend (u : List Char) : trimEnd (u ++ [c]) = trimEnd u := by
    rw [trimEnd, trimEnd, List.reverse_append, List.reverse_singleton, List.singleton_append,
      List.dropWhile_cons_of_pos h]
  rw [trim, trim, trimStart, trimStart, List.dropWhile_append]
  split
  case isTrue hnil =>
    rw [List.isEmpty_iff.mp hnil, List.dropWhile_cons_of_pos h, List.dropWhile_nil]
  case isFalse => exact hend _

theorem trim_cons (h : isBlank c = false) (text : List Char) :
    ∃ rest, trim (c :: text) = c :: rest := by
  have hneg : ¬ isBlank c = true := by simp [h]
  rw [trim, trimStart, List.dropWhile_cons_of_neg hneg, trimEnd, List.reverse_cons,
    List.dropWhile_append]
  split
  case isTrue =>
    rw [List.dropWhile_cons_of_neg hneg]
    exact ⟨[], rfl⟩
  case isFalse =>
    rw [List.reverse_append]
    exact ⟨_, rfl⟩

theorem edged_of_solid (hne : w ≠ []) (h : ∀ c ∈ w, Solid c) : Edged w where
  ne_nil := hne
  first c hc := (h c (List.mem_of_mem_head? hc)).isBlank
  last c hc := (h c (List.mem_of_mem_getLast? hc)).isBlank

theorem edged_singleton (h : isBlank c = false) : Edged [c] where
  ne_nil := List.cons_ne_nil _ _
  first _ hd := Option.some.inj hd ▸ h
  last _ hd := Option.some.inj hd ▸ h

theorem Edged.join (hu : Edged u) (hv : Edged v) (middle : List Char) :
    Edged (u ++ (middle ++ v)) where
  ne_nil h := hu.ne_nil (List.append_eq_nil_iff.mp h).1
  first c hc := by
    rw [List.head?_append_of_ne_nil _ hu.ne_nil] at hc
    exact hu.first c hc
  last c hc := by
    rw [← List.append_assoc, List.getLast?_append_of_ne_nil _ hv.ne_nil] at hc
    exact hv.last c hc

/-! ## Cutting -/

theorem span_of_forall (h : ∀ c ∈ w, p c = true) : w.span p = (w, []) := by
  rw [List.span_eq_takeWhile_dropWhile, List.takeWhile_eq_self_iff.mpr h,
    List.dropWhile_eq_nil_iff.mpr h]

theorem span_append_cons (h : ∀ c ∈ w, p c = true) (hc : p c = false) :
    (w ++ c :: rest).span p = (w, c :: rest) := by
  have hneg : ¬ p c = true := by simp [hc]
  rw [List.span_eq_takeWhile_dropWhile, List.takeWhile_append_of_pos h,
    List.dropWhile_append_of_pos h, List.takeWhile_cons_of_neg hneg,
    List.dropWhile_cons_of_neg hneg, List.append_nil]

end TwoAddress.Text
