/-
# `Proofs.Text.Lines` — texts line by line

A text is its first line, a line feed and a shorter text, or it is a last line
without line feed (`line_induction`). Its lines are what stands between the line
feeds, less a carriage return at the end of each (`lines_append`). Who looks at
lines through a trim, as all readers of listings do, does not see that return; so
it is the same to them whether lines end in one (`map_lines_withReturns`), and whether
lines are put together to a text and cut again (`map_lines_unlines`).
-/
import Mathlib.Data.List.DropRight
import TwoAddress.Proofs.Text.Words
import TwoAddress.Text.Lines

namespace TwoAddress

/-! ## Cutting at the elements of a kind -/

variable {α β : Type}

/-- Either no element is of the kind, or the first that is has others before it and
a shorter list behind it. -/
theorem split_induction (p : α → Bool) {motive : List α → Prop}
    (whole : ∀ xs, (∀ x ∈ xs, p x = false) → motive xs)
    (cut : ∀ xs x rest, (∀ y ∈ xs, p y = false) → p x = true → motive rest →
      motive (xs ++ x :: rest))
    (xs : List α) : motive xs := by
  induction hn : xs.length using Nat.strongRecOn generalizing xs with
  | ind n ih =>
      cases hfind : xs.find? p with
      | none =>
          refine whole xs ?_
          intro x hx
          simpa using List.find?_eq_none.mp hfind x hx
      | some x =>
          obtain ⟨hx, before, rest, rfl, hbefore⟩ := List.find?_eq_some_iff_append.mp hfind
          refine cut before x rest (fun y hy => by simpa using hbefore y hy) hx ?_
          exact ih rest.length (by simp [← hn]; omega) rest rfl

theorem length_splitOnP (p : α → Bool) (xs : List α) :
    (xs.splitOnP p).length = xs.countP p + 1 := by
  induction xs using split_induction p with
  | whole xs h =>
      have hcount : xs.countP p = 0 := List.countP_eq_zero.mpr fun x hx => by simp [h x hx]
      rw [List.splitOnP_eq_singleton h, hcount]
      rfl
  | cut xs x rest h hx ih =>
      have hcount : xs.countP p = 0 := List.countP_eq_zero.mpr fun y hy => by simp [h y hy]
      rw [List.splitOnP_append_cons_of_forall_mem h x hx, List.length_cons, ih,
        List.countP_append, hcount, List.countP_cons_of_pos hx, Nat.zero_add]

theorem mem_of_mem_splitOnP {p : α → Bool} {xs piece : List α} {x : α}
    (hpiece : piece ∈ xs.splitOnP p) (hx : x ∈ piece) : x ∈ xs := by
  induction xs using split_induction p with
  | whole xs h =>
      rw [List.splitOnP_eq_singleton h, List.mem_singleton] at hpiece
      exact hpiece ▸ hx
  | cut xs y rest h hy ih =>
      rw [List.splitOnP_append_cons_of_forall_mem h y hy] at hpiece
      rcases List.mem_cons.mp hpiece with rfl | hrest
      · exact List.mem_append_left _ hx
      · exact List.mem_append_right _ (List.mem_cons_of_mem y (ih hrest))

theorem map_splitOnP (p : β → Bool) (f : α → β) (xs : List α) :
    (xs.map f).splitOnP p = (xs.splitOnP (p ∘ f)).map (List.map f) := by
  induction xs using split_induction (p ∘ f) with
  | whole xs h =>
      rw [List.splitOnP_eq_singleton h, List.splitOnP_eq_singleton]
      · rfl
      · exact List.forall_mem_map.mpr h
  | cut xs x rest h hx ih =>
      have hmap : ∀ y ∈ xs.map f, p y = false := List.forall_mem_map.mpr h
      rw [List.map_append, List.map_cons, List.splitOnP_append_cons_of_forall_mem hmap (f x) hx,
        List.splitOnP_append_cons_of_forall_mem h x hx, ih, List.map_cons]

theorem splitOnP_intercalate {p : α → Bool} {x : α} {pieces : List (List α)} (hx : p x = true)
    (hne : pieces ≠ []) (h : ∀ piece ∈ pieces, ∀ y ∈ piece, p y = false) :
    ([x].intercalate pieces).splitOnP p = pieces := by
  induction pieces with
  | nil => exact absurd rfl hne
  | cons piece rest ih =>
      obtain ⟨hpiece, hrest⟩ := List.forall_mem_cons.mp h
      by_cases hnil : rest = []
      · rw [hnil, List.intercalate_singleton, List.splitOnP_eq_singleton hpiece]
      · rw [List.intercalate_cons_of_ne_nil hnil, List.append_assoc, List.singleton_append,
          List.splitOnP_append_cons_of_forall_mem hpiece x hx, ih hnil hrest]

theorem mem_of_mem_intercalate {x y : α} {pieces : List (List α)}
    (hy : y ∈ [x].intercalate pieces) : y = x ∨ ∃ piece ∈ pieces, y ∈ piece := by
  induction pieces with
  | nil => exact nomatch hy
  | cons piece rest ih =>
      by_cases hnil : rest = []
      · rw [hnil, List.intercalate_singleton] at hy
        exact .inr ⟨piece, List.mem_cons_self, hy⟩
      · rw [List.intercalate_cons_of_ne_nil hnil, List.append_assoc, List.singleton_append] at hy
        rcases List.mem_append.mp hy with hy | hy
        · exact .inr ⟨piece, List.mem_cons_self, hy⟩
        · rcases List.mem_cons.mp hy with rfl | hy
          · exact .inl rfl
          · rcases ih hy with rfl | ⟨piece', hmem, hy⟩
            · exact .inl rfl
            · exact .inr ⟨piece', List.mem_cons_of_mem piece hmem, hy⟩

theorem rtakeWhile_append_cons {p : α → Bool} {x : α} (xs : List α) (hx : p x = false)
    (rest : List α) : (xs ++ x :: rest).rtakeWhile p = rest.rtakeWhile p := by
  induction rest using List.reverseRecOn with
  | nil => rw [List.rtakeWhile_concat_neg p xs x (by simp [hx]), List.rtakeWhile_nil]
  | append_singleton rest y ih =>
      rw [← List.cons_append, ← List.append_assoc, List.rtakeWhile_concat, ih,
        List.rtakeWhile_concat]

theorem getLast?_splitOnP (p : α → Bool) (xs : List α) :
    (xs.splitOnP p).getLast? = some (xs.rtakeWhile fun x => !p x) := by
  induction xs using split_induction p with
  | whole xs h =>
      rw [List.splitOnP_eq_singleton h, List.getLast?_singleton,
        List.rtakeWhile_eq_self_iff.mpr fun x hx => by simp [h x hx]]
  | cut xs x rest h hx ih =>
      rw [List.splitOnP_append_cons_of_forall_mem h x hx,
        List.getLast?_cons_of_ne_nil (List.splitOnP_ne_nil p rest), ih,
        rtakeWhile_append_cons xs (by simp [hx]) rest]

namespace Text

/-- A text is a last line, or a line, a line feed and a shorter text. -/
theorem line_induction {motive : List Char → Prop}
    (last : ∀ l, '\n' ∉ l → motive l)
    (line : ∀ l rest, '\n' ∉ l → motive rest → motive (l ++ '\n' :: rest))
    (text : List Char) : motive text := by
  have hfree {l : List Char} (h : ∀ c ∈ l, (c == '\n') = false) : '\n' ∉ l :=
    fun hmem => Bool.noConfusion (h '\n' hmem)
  induction text using split_induction (· == '\n') with
  | whole l h => exact last l (hfree h)
  | cut l c rest h hc ih =>
      obtain rfl := beq_iff_eq.mp hc
      exact line l rest (hfree h) ih

/-! ## Lines without their ends -/

/-- A line without a carriage return at its end. -/
def dropReturn (l : List Char) : List Char :=
  if l.getLast? = some '\r' then l.dropLast else l

theorem eq_dropReturn_or (l : List Char) : l = dropReturn l ∨ l = dropReturn l ++ ['\r'] := by
  rw [dropReturn]
  split
  case isTrue h =>
    obtain ⟨ys, rfl⟩ := List.getLast?_eq_some_iff.mp h
    exact .inr (by rw [List.dropLast_concat])
  case isFalse => exact .inl rfl

theorem dropReturn_append_return (l : List Char) : dropReturn (l ++ ['\r']) = l := by
  simp [dropReturn]

theorem dropReturn_cons {c : Char} {l : List Char} (h : l ≠ [] ∨ c ≠ '\r') :
    dropReturn (c :: l) = c :: dropReturn l := by
  cases l with
  | nil =>
      have hc : c ≠ '\r' := h.resolve_left (fun hne => hne rfl)
      simp [dropReturn, hc]
  | cons d l =>
      simp only [dropReturn, List.getLast?_cons_cons, List.dropLast_cons_cons]
      split
      case isTrue => rfl
      case isFalse => rfl

theorem lines_cons {c : Char} {rest : List Char} (hc : c ≠ '\n')
    (h : c = '\r' → ∀ more, rest ≠ '\n' :: more) :
    lines (c :: rest) =
      match lines rest with
      | [] => [[c]]
      | line :: more => (c :: line) :: more := by
  refine lines.eq_4 c rest hc ?_
  intro more hret hrest
  exact h hret more hrest

theorem lines_of_not_mem {l : List Char} (h : '\n' ∉ l) :
    lines l = if l = [] then [] else [l] := by
  induction l with
  | nil => rfl
  | cons c l ih =>
      obtain ⟨hc, hl⟩ := List.ne_and_not_mem_of_not_mem_cons h
      have hfeed : ∀ more, l ≠ '\n' :: more := by
        rintro more rfl
        exact hl List.mem_cons_self
      rw [lines_cons (Ne.symm hc) (fun _ => hfeed), ih hl]
      cases l with
      | nil => rfl
      | cons d l => rfl

theorem lines_append {l : List Char} (h : '\n' ∉ l) (rest : List Char) :
    lines (l ++ '\n' :: rest) = dropReturn l :: lines rest := by
  induction l with
  | nil => rfl
  | cons c l ih =>
      obtain ⟨hc, hl⟩ := List.ne_and_not_mem_of_not_mem_cons h
      by_cases hret : c = '\r' ∧ l = []
      · obtain ⟨rfl, rfl⟩ := hret
        rfl
      · have hor : l ≠ [] ∨ c ≠ '\r' := by
          by_cases hnil : l = []
          · exact .inr fun hcr => hret ⟨hcr, hnil⟩
          · exact .inl hnil
        have hfeed : c = '\r' → ∀ more, l ++ '\n' :: rest ≠ '\n' :: more := by
          intro hcr more heq
          cases l with
          | nil => exact hret ⟨hcr, rfl⟩
          | cons d l => exact hl ((List.cons.inj heq).1 ▸ List.mem_cons_self)
        rw [List.cons_append, lines_cons (Ne.symm hc) hfeed, ih hl, dropReturn_cons hor]

theorem mem_of_mem_dropReturn {c : Char} {l : List Char} (h : c ∈ dropReturn l) : c ∈ l := by
  rw [dropReturn] at h
  split at h
  case isTrue => exact List.dropLast_subset l h
  case isFalse => exact h

theorem not_mem_of_mem_lines {text line : List Char} (h : line ∈ lines text) : '\n' ∉ line := by
  induction text using line_induction with
  | last l hl =>
      rw [lines_of_not_mem hl] at h
      split at h
      case isTrue => exact nomatch h
      case isFalse =>
        rw [List.mem_singleton.mp h]
        exact hl
  | line l rest hl ih =>
      rw [lines_append hl] at h
      rcases List.mem_cons.mp h with rfl | h
      · exact fun hmem => hl (mem_of_mem_dropReturn hmem)
      · exact ih h

theorem unlines_cons (l : List Char) (ls : List (List Char)) :
    unlines (l :: ls) = l ++ '\n' :: unlines ls := by
  simp [unlines]

theorem dropReturn_eq_self {l : List Char} (h : '\r' ∉ l) : dropReturn l = l := by
  rw [dropReturn, if_neg]
  intro hlast
  exact h (List.mem_of_getLast? hlast)

theorem lines_unlines {ls : List (List Char)} (h : ∀ l ∈ ls, ∀ c ∈ l, 0x20 ≤ c.toNat) :
    lines (unlines ls) = ls := by
  induction ls with
  | nil => rfl
  | cons l ls ih =>
      obtain ⟨hl, hls⟩ := List.forall_mem_cons.mp h
      have hfeed : '\n' ∉ l := fun hmem => absurd (hl _ hmem) (by decide)
      have hreturn : '\r' ∉ l := fun hmem => absurd (hl _ hmem) (by decide)
      rw [unlines_cons, lines_append hfeed, dropReturn_eq_self hreturn, ih hls]

/-! ## What does not depend on returns -/

section Returns

variable {f : List Char → β} {ls : List (List Char)}

theorem apply_dropReturn (hf : ∀ l, f (l ++ ['\r']) = f l) (l : List Char) :
    f (dropReturn l) = f l := by
  rcases eq_dropReturn_or l with h | h
  · rw [← h]
  · rw [h, dropReturn_append_return, hf]

theorem map_lines_unlines (hf : ∀ l, f (l ++ ['\r']) = f l) (h : ∀ l ∈ ls, '\n' ∉ l) :
    (lines (unlines ls)).map f = ls.map f := by
  induction ls with
  | nil => rfl
  | cons l ls ih =>
      obtain ⟨hl, hls⟩ := List.forall_mem_cons.mp h
      rw [unlines_cons, lines_append hl, List.map_cons, List.map_cons, apply_dropReturn hf, ih hls]

/-- A text with a carriage return put before each line feed. -/
def withReturns (text : List Char) : List Char :=
  text.flatMap fun c => if c = '\n' then ['\r', '\n'] else [c]

theorem withReturns_of_not_mem {l : List Char} (h : '\n' ∉ l) : withReturns l = l := by
  induction l with
  | nil => rfl
  | cons c l ih =>
      obtain ⟨hc, hl⟩ := List.ne_and_not_mem_of_not_mem_cons h
      rw [withReturns, List.flatMap_cons, if_neg (Ne.symm hc)]
      exact congrArg (c :: ·) (ih hl)

theorem withReturns_append {l : List Char} (h : '\n' ∉ l) (rest : List Char) :
    withReturns (l ++ '\n' :: rest) = (l ++ ['\r']) ++ '\n' :: withReturns rest := by
  have hl := withReturns_of_not_mem h
  rw [withReturns] at hl
  rw [withReturns, List.flatMap_append, hl, List.flatMap_cons]
  simp [withReturns]

theorem map_lines_withReturns (hf : ∀ l, f (l ++ ['\r']) = f l) (text : List Char) :
    (lines (withReturns text)).map f = (lines text).map f := by
  induction text using line_induction with
  | last l hl => rw [withReturns_of_not_mem hl]
  | line l rest hl ih =>
      have hret : '\n' ∉ l ++ ['\r'] := by simpa using hl
      rw [withReturns_append hl, lines_append hret, lines_append hl, List.map_cons, List.map_cons,
        dropReturn_append_return, apply_dropReturn hf, ih]

end Returns

/-! ## Texts with their lines replaced -/

/-- A text with each line replaced, and the line feeds left where they are. -/
def mapLines (g : List Char → List Char) (text : List Char) : List Char :=
  ['\n'].intercalate ((text.splitOn '\n').map g)

variable {g : List Char → List Char}

theorem mapLines_of_not_mem {l : List Char} (h : '\n' ∉ l) : mapLines g l = g l := by
  rw [mapLines, List.splitOn_eq_singleton h]
  simp

theorem mapLines_append {l : List Char} (h : '\n' ∉ l) (rest : List Char) :
    mapLines g (l ++ '\n' :: rest) = g l ++ '\n' :: mapLines g rest := by
  have hne : (rest.splitOn '\n').map g ≠ [] := by
    rw [ne_eq, List.map_eq_nil_iff, List.splitOn_eq_splitOnP]
    exact List.splitOnP_ne_nil _ rest
  rw [mapLines, List.splitOn_append_cons_self_of_not_mem h, List.map_cons,
    List.intercalate_cons_of_ne_nil hne, mapLines, List.append_assoc, List.singleton_append]

end Text

end TwoAddress
