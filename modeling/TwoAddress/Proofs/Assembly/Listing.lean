/-
# `Proofs.Assembly.Listing` — a listing of blocks read as one block

A listing is cut at its separators, each piece is made a text again and read on
its own, and the lines of a piece are counted on from the separator before it. All
this is the same as reading the listing with its separators blanked, in one go
(`blockOfLines_map_blank`): the same first fault at the same line, or the
same instructions in the same order. What the cut adds is where the blocks begin
and end, and that a last piece without instructions is dropped.

Reading goes by the lines without comments and blanks around them (`code`). The
instructions depend on nothing else (`blockOfLines_congr`), and which line is
blamed, only on how many lines come before it (`blockOfLines_eq_error_iff`).
-/
import Mathlib.Data.List.DropRight
import Mathlib.Data.List.Forall2
import TwoAddress.Assembly.Listing
import TwoAddress.Proofs.Except
import TwoAddress.Proofs.Text.Lines

namespace TwoAddress.Assembly

open Text

variable {line : List Char} {ls ls' : List (List Char)} {rest : List (List Char × Nat)}
  {k n : Nat} {e : LineFault} {b : List Instruction} {α β : Type}

/-! ## Lines and returns -/

theorem isBlank_return : isBlank '\r' = true := by
  decide

theorem code_append_return (l : List Char) : code (l ++ ['\r']) = code l := by
  rw [code, code, List.takeWhile_append]
  split
  case isTrue h =>
    rw [List.takeWhile_cons_of_pos (by decide), List.takeWhile_nil,
      trim_append_blank isBlank_return]
    rw [(List.takeWhile_prefix _).eq_of_length h]
  case isFalse => rfl

theorem isSeparator_append_return (l : List Char) : isSeparator (l ++ ['\r']) = isSeparator l := by
  rw [isSeparator, isSeparator, trim_append_blank isBlank_return]

theorem code_nil : code [] = [] := rfl

/-! ## The lines of one block -/

/-- A line that is neither passed over nor read. -/
def Refused (line : List Char) (fault : Fault) : Prop :=
  code line ≠ [] ∧ instruction (code line) = .error fault

theorem blockOfLines_of_code_nil (h : code line = []) :
    blockOfLines ((line, n) :: rest) = blockOfLines rest := by
  rw [blockOfLines, h]
  rfl

theorem blockOfLines_of_refused {fault : Fault} (h : Refused line fault) :
    blockOfLines ((line, n) :: rest) = .error ⟨n, fault⟩ := by
  have hempty : ¬ (code line).isEmpty = true := by simpa using h.1
  rw [blockOfLines, if_neg hempty, h.2]

theorem blockOfLines_of_instruction {ins : Instruction} (hne : code line ≠ [])
    (h : instruction (code line) = .ok ins) :
    blockOfLines ((line, n) :: rest) = (blockOfLines rest).map (ins :: ·) := by
  have hempty : ¬ (code line).isEmpty = true := by simpa using hne
  rw [blockOfLines, if_neg hempty, h]
  cases blockOfLines rest with
  | error e => rfl
  | ok a => rfl

theorem line_cases (line : List Char) :
    code line = [] ∨ (∃ fault, Refused line fault) ∨
      (code line ≠ [] ∧ ∃ ins, instruction (code line) = .ok ins) := by
  by_cases hne : code line = []
  · exact .inl hne
  · cases h : instruction (code line) with
    | error fault => exact .inr (.inl ⟨fault, hne, h⟩)
    | ok ins => exact .inr (.inr ⟨hne, ins, rfl⟩)

theorem blockOfLines_cons_congr {rest' : List (List Char × Nat)} {line' : List Char}
    (h : code line = code line') (hrest : blockOfLines rest = blockOfLines rest') :
    blockOfLines ((line, n) :: rest) = blockOfLines ((line', n) :: rest') := by
  rw [blockOfLines, blockOfLines, h, hrest]

theorem blockOfLines_congr (h : ls.map code = ls'.map code) (k : Nat) :
    blockOfLines (ls.zipIdx k) = blockOfLines (ls'.zipIdx k) := by
  induction ls generalizing ls' k with
  | nil =>
      obtain rfl := List.map_eq_nil_iff.mp h.symm
      rfl
  | cons line ls ih =>
      obtain ⟨line', rest, rfl, hcode, hrest⟩ := List.map_eq_cons_iff.mp h.symm
      exact blockOfLines_cons_congr hcode.symm (ih hrest.symm (k + 1))

theorem blockAfter_unlines (h : ∀ l ∈ ls, '\n' ∉ l) :
    blockAfter n (unlines ls) = blockOfLines (ls.zipIdx (n + 1)) :=
  blockOfLines_congr (map_lines_unlines code_append_return h) (n + 1)

theorem blockOfLines_append (xs ys : List (List Char × Nat)) :
    blockOfLines (xs ++ ys) =
      blockOfLines xs >>= fun a => (blockOfLines ys).map (a ++ ·) := by
  induction xs with
  | nil =>
      show blockOfLines ys = (blockOfLines ys).map ([] ++ ·)
      cases blockOfLines ys with
      | error e => rfl
      | ok a => rfl
  | cons x xs ih =>
      obtain ⟨line, n⟩ := x
      rw [List.cons_append]
      rcases line_cases line with hnil | ⟨fault, hf⟩ | ⟨hne, ins, hi⟩
      · rw [blockOfLines_of_code_nil hnil, blockOfLines_of_code_nil hnil, ih]
      · rw [blockOfLines_of_refused hf, blockOfLines_of_refused hf]
        rfl
      · rw [blockOfLines_of_instruction hne hi, blockOfLines_of_instruction hne hi, ih]
        cases blockOfLines xs with
        | error e => rfl
        | ok a =>
            show ((blockOfLines ys).map (a ++ ·)).map (ins :: ·) =
              (blockOfLines ys).map (ins :: a ++ ·)
            cases blockOfLines ys with
            | error e => rfl
            | ok b => rfl

/-- Every line with code is read as an instruction, in order. Where the count
starts does not matter then. -/
theorem blockOfLines_eq_ok_iff :
    blockOfLines (ls.zipIdx k) = .ok b ↔
      List.Forall₂ (fun c ins => instruction c = .ok ins) ((ls.map code).filter (· ≠ [])) b := by
  induction ls generalizing k b with
  | nil =>
      rw [List.map_nil, List.filter_nil, List.forall₂_nil_left_iff]
      exact ⟨fun h => (Except.ok.inj h).symm, fun h => h ▸ rfl⟩
  | cons line ls ih =>
      rw [List.zipIdx_cons, List.map_cons]
      rcases line_cases line with hnil | ⟨fault, hf⟩ | ⟨hne, ins, hi⟩
      · rw [blockOfLines_of_code_nil hnil, List.filter_cons_of_neg (by simpa using hnil), ih]
      · rw [blockOfLines_of_refused hf, List.filter_cons_of_pos (by simpa using hf.1),
          List.forall₂_cons_left_iff]
        refine ⟨fun h => (nomatch h), ?_⟩
        rintro ⟨_, _, h, _⟩
        exact nomatch hf.2.symm.trans h
      · rw [blockOfLines_of_instruction hne hi, List.filter_cons_of_pos (by simpa using hne),
          List.forall₂_cons_left_iff, map_eq_ok_iff]
        constructor
        · rintro ⟨a, ha, rfl⟩
          exact ⟨ins, a, hi, ih.mp ha, rfl⟩
        · rintro ⟨ins', a, hi', ha, rfl⟩
          obtain rfl := Except.ok.inj (hi.symm.trans hi')
          exact ⟨a, ih.mpr ha, rfl⟩

theorem exists_of_not_refused (h : ∀ l ∈ ls, ∀ fault, ¬ Refused l fault) (k : Nat) :
    ∃ b, blockOfLines (ls.zipIdx k) = .ok b := by
  induction ls generalizing k with
  | nil => exact ⟨[], rfl⟩
  | cons line ls ih =>
      obtain ⟨hline, hls⟩ := List.forall_mem_cons.mp h
      obtain ⟨b, hb⟩ := ih hls (k + 1)
      rw [List.zipIdx_cons]
      rcases line_cases line with hnil | ⟨fault, hf⟩ | ⟨hne, ins, hi⟩
      · exact ⟨b, by rw [blockOfLines_of_code_nil hnil, hb]⟩
      · exact absurd hf (hline fault)
      · exact ⟨ins :: b, by rw [blockOfLines_of_instruction hne hi, hb]; rfl⟩

theorem first_refused (ls : List (List Char)) :
    (∀ l ∈ ls, ∀ fault, ¬ Refused l fault) ∨
      ∃ before line after fault, ls = before ++ line :: after ∧ Refused line fault ∧
        ∀ l ∈ before, ∀ fault, ¬ Refused l fault := by
  classical
  induction ls using split_induction (fun l => decide (∃ fault, Refused l fault)) with
  | whole ls h => exact .inl fun l hl => not_exists.mp (of_decide_eq_false (h l hl))
  | cut before line after h hline _ =>
      obtain ⟨fault, hf⟩ := of_decide_eq_true hline
      exact .inr ⟨before, line, after, fault, rfl, hf,
        fun l hl => not_exists.mp (of_decide_eq_false (h l hl))⟩

/-- The first refused line is blamed, under its number. -/
theorem blockOfLines_eq_error_iff :
    blockOfLines (ls.zipIdx k) = .error e ↔
      ∃ before line after, ls = before ++ line :: after ∧ e.line = k + before.length ∧
        Refused line e.fault ∧ ∀ l ∈ before, ∀ fault, ¬ Refused l fault := by
  have hfirst {before after : List (List Char)} {line fault} (hline : Refused line fault)
      (hbefore : ∀ l ∈ before, ∀ fault, ¬ Refused l fault) :
      blockOfLines ((before ++ line :: after).zipIdx k) = .error ⟨k + before.length, fault⟩ := by
    obtain ⟨b, hb⟩ := exists_of_not_refused hbefore k
    rw [List.zipIdx_append, blockOfLines_append, hb, List.zipIdx_cons,
      blockOfLines_of_refused hline]
    rfl
  constructor
  · intro h
    rcases first_refused ls with hnone | ⟨before, line, after, fault, rfl, hline, hbefore⟩
    · obtain ⟨b, hb⟩ := exists_of_not_refused hnone k
      exact nomatch h.symm.trans hb
    · rw [hfirst hline hbefore] at h
      obtain rfl := Except.error.inj h
      exact ⟨before, line, after, rfl, rfl, hline, hbefore⟩
  · obtain ⟨n, fault⟩ := e
    rintro ⟨before, line, after, rfl, hn, hline, hbefore⟩
    obtain rfl : n = k + before.length := hn
    exact hfirst hline hbefore

/-! ## Listings with blanked separators -/

/-- An empty line for a separator, any other line as it is. -/
def blank (line : List Char) : List Char :=
  if isSeparator line then [] else line

/-- A listing with an empty line in the place of each separator. -/
def blankSeparators (source : List Char) : List Char :=
  mapLines blank source

theorem blank_of_isSeparator (h : isSeparator line = true) : blank line = [] :=
  if_pos h

theorem blank_of_not_isSeparator (h : isSeparator line = false) : blank line = line :=
  if_neg (by simp [h])

theorem code_blank (line : List Char) :
    code (blank line) = if isSeparator line then [] else code line := by
  cases h : isSeparator line with
  | false =>
      rw [blank_of_not_isSeparator h]
      rfl
  | true =>
      rw [blank_of_isSeparator h]
      rfl

theorem refused_blank_iff {fault : Fault} :
    Refused (blank line) fault ↔ isSeparator line = false ∧ Refused line fault := by
  cases h : isSeparator line with
  | false => simp [blank_of_not_isSeparator h]
  | true =>
      rw [blank_of_isSeparator h]
      exact ⟨fun hr => absurd code_nil hr.1, fun hr => (nomatch hr.1)⟩

theorem not_mem_blank (h : '\n' ∉ line) : '\n' ∉ blank line := by
  cases hsep : isSeparator line with
  | false => rwa [blank_of_not_isSeparator hsep]
  | true =>
      rw [blank_of_isSeparator hsep]
      exact List.not_mem_nil

/-- A listing with blanked separators is read as its lines are, each blanked if it is
a separator. That it has no line for a separator at its end without line feed, makes
no difference. -/
theorem block_blankSeparators (source : List Char) :
    block (blankSeparators source) = blockOfLines (((lines source).map blank).zipIdx 1) := by
  rw [block, blockAfter, Nat.zero_add]
  generalize 1 = k
  induction source using line_induction generalizing k with
  | last l hl =>
      rw [blankSeparators, mapLines_of_not_mem hl, lines_of_not_mem hl,
        lines_of_not_mem (not_mem_blank hl)]
      -- A separator blanked at the end of the text leaves no line, where `map` leaves an
      -- empty one.
      by_cases hnil : blank l = []
      · rw [if_pos hnil]
        by_cases hl : l = []
        · rw [if_pos hl]
          rfl
        · rw [if_neg hl, List.map_singleton, hnil, List.zipIdx_cons,
            blockOfLines_of_code_nil code_nil]
          rfl
      · have hl : l ≠ [] := by
          rintro rfl
          exact hnil rfl
        rw [if_neg hnil, if_neg hl]
        rfl
  | line l rest hl ih =>
      have hcode : code (dropReturn (blank l)) = code (blank (dropReturn l)) := by
        rw [apply_dropReturn code_append_return, code_blank, code_blank,
          apply_dropReturn isSeparator_append_return, apply_dropReturn code_append_return]
      rw [blankSeparators, mapLines_append hl, lines_append (not_mem_blank hl), lines_append hl]
      exact blockOfLines_cons_congr hcode (ih (k + 1))

/-! ## Cutting at the separators -/

theorem splitBlocks_eq (ls : List (List Char)) : splitBlocks ls = ls.splitOnP isSeparator := by
  induction ls with
  | nil => rfl
  | cons line ls ih =>
      rw [splitBlocks, ih, List.splitOnP_cons_eq_if_modifyHead]
      congr 1
      cases h : ls.splitOnP isSeparator with
      | nil => exact absurd h (List.splitOnP_ne_nil _ ls)
      | cons piece more => rfl

/-- Reading pieces one after the other is reading the listing with its separators
blanked. -/
theorem blockOfLines_map_blank (h : ∀ l ∈ ls, '\n' ∉ l) (n : Nat) :
    blockOfLines ((ls.map blank).zipIdx (n + 1)) =
      (blocksAfter n (ls.splitOnP isSeparator)).map List.flatten := by
  have hsame {xs : List (List Char)} (hxs : ∀ x ∈ xs, isSeparator x = false) :
      xs.map blank = xs :=
    (List.map_congr_left fun x hx => blank_of_not_isSeparator (hxs x hx)).trans (List.map_id xs)
  induction ls using split_induction isSeparator generalizing n with
  | whole ls hls =>
      rw [hsame hls, List.splitOnP_eq_singleton hls, blocksAfter, blockAfter_unlines h]
      cases blockOfLines (ls.zipIdx (n + 1)) with
      | error e => rfl
      | ok b => exact congrArg Except.ok (List.append_nil b).symm
  | cut before sep after hbefore hsep ih =>
      obtain ⟨hb, ha⟩ := List.forall_mem_append.mp h
      -- The blanked separator is passed over but takes a number, as it does for the pieces.
      have hafter := ih (List.forall_mem_cons.mp ha).2 (n + before.length + 1)
      rw [List.map_append, List.map_cons, hsame hbefore, blank_of_isSeparator hsep,
        List.zipIdx_append, List.zipIdx_cons, blockOfLines_append,
        blockOfLines_of_code_nil code_nil,
        List.splitOnP_append_cons_of_forall_mem hbefore sep hsep, blocksAfter,
        blockAfter_unlines hb, Nat.add_right_comm n 1, hafter]
      cases blockOfLines (before.zipIdx (n + 1)) with
      | error e => rfl
      | ok b =>
          cases blocksAfter (n + before.length + 1) (after.splitOnP isSeparator) with
          | error e => rfl
          | ok bs => rfl

theorem blockAfter_eq_ok_iff {text : List Char} :
    blockAfter n text = .ok b ↔ block text = .ok b :=
  blockOfLines_eq_ok_iff.trans blockOfLines_eq_ok_iff.symm

theorem blocksAfter_eq_ok_iff {pieces : List (List (List Char))} {bs : List (List Instruction)} :
    blocksAfter n pieces = .ok bs ↔
      List.Forall₂ (fun piece b => block (unlines piece) = .ok b) pieces bs := by
  induction pieces generalizing n bs with
  | nil =>
      rw [List.forall₂_nil_left_iff]
      exact ⟨fun h => (Except.ok.inj h).symm, fun h => h ▸ rfl⟩
  | cons piece pieces ih =>
      rw [blocksAfter, bind_eq_ok_iff, List.forall₂_cons_left_iff]
      constructor
      · rintro ⟨b, hb, hrest⟩
        obtain ⟨bs, hbs, h⟩ := bind_eq_ok_iff.mp hrest
        exact ⟨b, bs, blockAfter_eq_ok_iff.mp hb, ih.mp hbs, (Except.ok.inj h).symm⟩
      · rintro ⟨b, bs, hb, hbs, rfl⟩
        exact ⟨b, blockAfter_eq_ok_iff.mpr hb, bind_eq_ok_iff.mpr ⟨bs, ih.mpr hbs, rfl⟩⟩

theorem block_unlines_eq_nil_iff (h : ∀ l ∈ ls, '\n' ∉ l) :
    block (unlines ls) = .ok [] ↔ ∀ l ∈ ls, code l = [] := by
  rw [block, blockAfter_unlines h, blockOfLines_eq_ok_iff, List.forall₂_nil_right_iff,
    List.filter_eq_nil_iff, List.forall_mem_map]
  simp

/-! ## The last block -/

theorem dropEmptyLast_cases (bs : List (List Instruction)) :
    (¬ (1 < bs.length ∧ bs.getLast? = some []) ∧ dropEmptyLast bs = bs) ∨
      ((1 < bs.length ∧ bs.getLast? = some []) ∧ bs = dropEmptyLast bs ++ [[]]) := by
  cases bs with
  | nil => exact .inl ⟨fun h => (nomatch h.2), rfl⟩
  | cons first rest =>
      rw [dropEmptyLast]
      split
      case isTrue h =>
        obtain ⟨more, rfl⟩ := List.getLast?_eq_some_iff.mp h
        refine .inr ⟨⟨by simp, ?_⟩, ?_⟩
        · rw [← List.cons_append, List.getLast?_concat]
        · rw [List.dropLast_concat, List.cons_append]
      case isFalse h =>
        refine .inl ⟨?_, rfl⟩
        rintro ⟨hlen, hlast⟩
        have hne : rest ≠ [] := by
          rintro rfl
          exact absurd hlen (Nat.lt_irrefl 1)
        rw [List.getLast?_cons_of_ne_nil hne] at hlast
        exact h hlast

theorem length_dropEmptyLast (bs : List (List Instruction)) :
    (dropEmptyLast bs).length =
      if 1 < bs.length ∧ bs.getLast? = some [] then bs.length - 1 else bs.length := by
  rcases dropEmptyLast_cases bs with ⟨hkept, h⟩ | ⟨hdropped, h⟩
  · rw [if_neg hkept, h]
  · have hlen := congrArg List.length h
    rw [List.length_append, List.length_singleton] at hlen
    rw [if_pos hdropped, hlen, Nat.add_sub_cancel]

theorem getElem?_of_dropEmptyLast {bs : List (List Instruction)} {i : Nat}
    (h : (dropEmptyLast bs)[i]? = some b) : bs[i]? = some b := by
  rcases dropEmptyLast_cases bs with ⟨_, hkept⟩ | ⟨_, hdropped⟩
  · rwa [hkept] at h
  · obtain ⟨hi, _⟩ := List.getElem?_eq_some_iff.mp h
    have happ : (dropEmptyLast bs ++ [[]])[i]? = some b := by rw [List.getElem?_append_left hi, h]
    rwa [← hdropped] at happ

theorem dropEmptyLast_ne_nil {bs : List (List Instruction)} (h : bs ≠ []) :
    dropEmptyLast bs ≠ [] := by
  cases bs with
  | nil => exact absurd rfl h
  | cons first rest =>
      rw [dropEmptyLast]
      split <;> exact List.cons_ne_nil _ _

theorem flatten_dropEmptyLast (bs : List (List Instruction)) :
    (dropEmptyLast bs).flatten = bs.flatten := by
  rcases dropEmptyLast_cases bs with ⟨_, h⟩ | ⟨_, h⟩
  · rw [h]
  · conv_rhs => rw [h]
    simp

/-- There are separators, and no instruction comes after the last. -/
def EndsInSeparator (ls : List (List Char)) : Prop :=
  (∃ sep ∈ ls, isSeparator sep = true) ∧
    ∀ line ∈ ls.rtakeWhile (fun line => !isSeparator line), code line = []

section Pieces

variable {source : List Char} {bs : List (List Instruction)}

theorem not_mem_of_mem_pieces {piece : List (List Char)}
    (h : piece ∈ (lines source).splitOnP isSeparator) : ∀ l ∈ piece, '\n' ∉ l :=
  fun _ hl => not_mem_of_mem_lines (mem_of_mem_splitOnP h hl)

theorem getLast?_of_forall₂ {R : α → β → Prop} {as : List α} {bs : List β} {a : α}
    (h : List.Forall₂ R as bs) (ha : as.getLast? = some a) : ∃ b, bs.getLast? = some b ∧ R a b := by
  obtain ⟨front, rfl⟩ := List.getLast?_eq_some_iff.mp ha
  have hrev := List.forall₂_reverse_iff.mpr h
  rw [List.reverse_concat, List.forall₂_cons_left_iff] at hrev
  obtain ⟨b, more, hab, _, hbs⟩ := hrev
  exact ⟨b, by rw [List.getLast?_eq_head?_reverse, hbs, List.head?_cons], hab⟩

/-- The last block is empty, and not the only one, if the listing ends in a separator. -/
theorem lastEmpty_iff (h : blocksAfter 0 ((lines source).splitOnP isSeparator) = .ok bs) :
    1 < bs.length ∧ bs.getLast? = some [] ↔ EndsInSeparator (lines source) := by
  have hall := blocksAfter_eq_ok_iff.mp h
  have hlen : 1 < bs.length ↔ ∃ sep ∈ lines source, isSeparator sep = true := by
    rw [← hall.length_eq, length_splitOnP, Nat.lt_add_left_iff_pos, List.countP_pos_iff]
  obtain ⟨b, hb, hlast⟩ := getLast?_of_forall₂ hall (getLast?_splitOnP isSeparator (lines source))
  have hempty : block (unlines ((lines source).rtakeWhile (!isSeparator ·))) = .ok [] ↔
      ∀ l ∈ (lines source).rtakeWhile (!isSeparator ·), code l = [] :=
    block_unlines_eq_nil_iff fun l hl =>
      not_mem_of_mem_lines ((List.rtakeWhile_suffix _ _).mem hl)
  rw [EndsInSeparator, hlen, ← hempty, hlast, hb]
  refine and_congr_right fun _ => ⟨fun h => congrArg Except.ok (Option.some.inj h), ?_⟩
  exact fun h => congrArg some (Except.ok.inj h)

theorem blocksAfter_congr {pieces pieces' : List (List (List Char))}
    (hp : ∀ piece ∈ pieces, ∀ l ∈ piece, '\n' ∉ l)
    (hp' : ∀ piece ∈ pieces', ∀ l ∈ piece, '\n' ∉ l)
    (h : pieces.map (List.map code) = pieces'.map (List.map code)) (n : Nat) :
    blocksAfter n pieces = blocksAfter n pieces' := by
  induction pieces generalizing pieces' n with
  | nil =>
      obtain rfl := List.map_eq_nil_iff.mp h.symm
      rfl
  | cons piece pieces ih =>
      obtain ⟨piece', rest, rfl, hpiece, hrest⟩ := List.map_eq_cons_iff.mp h.symm
      obtain ⟨hhead, htail⟩ := List.forall_mem_cons.mp hp
      obtain ⟨hhead', htail'⟩ := List.forall_mem_cons.mp hp'
      have hlen : piece'.length = piece.length := by
        simpa using congrArg List.length hpiece
      rw [blocksAfter, blocksAfter, blockAfter_unlines hhead, blockAfter_unlines hhead',
        blockOfLines_congr hpiece, hlen, ih htail htail' hrest.symm]

/-- Where a listing is cut and what is read depends on this of its lines alone. -/
def key (line : List Char) : List Char × Bool :=
  (code line, isSeparator line)

theorem map_code_splitOnP (ls : List (List Char)) :
    (ls.splitOnP isSeparator).map (List.map code) =
      ((ls.map key).splitOnP Prod.snd).map (List.map Prod.fst) := by
  have hkey : List.map Prod.fst ∘ List.map key = List.map code :=
    funext fun ls => List.map_map
  rw [map_splitOnP, List.map_map, hkey]
  rfl

theorem blocks_withReturns (source : List Char) :
    blocks (withReturns source) = blocks source := by
  have hreturn (l : List Char) : key (l ++ ['\r']) = key l := by
    rw [key, key, code_append_return, isSeparator_append_return]
  -- The lines differ in returns, so the pieces do too; their code does not.
  have hpieces : ((lines (withReturns source)).splitOnP isSeparator).map (List.map code) =
      ((lines source).splitOnP isSeparator).map (List.map code) := by
    rw [map_code_splitOnP, map_code_splitOnP, map_lines_withReturns hreturn]
  rw [blocks, blocks, splitBlocks_eq, splitBlocks_eq,
    blocksAfter_congr (fun _ => not_mem_of_mem_pieces) (fun _ => not_mem_of_mem_pieces) hpieces]

end Pieces

/-! ## Listings -/

theorem blocks_eq (source : List Char) :
    blocks source = (blocksAfter 0 ((lines source).splitOnP isSeparator)).map dropEmptyLast := by
  rw [blocks, splitBlocks_eq]
  rfl

theorem blocks_ne_nil {source : List Char} {bs : List (List Instruction)}
    (h : blocks source = .ok bs) : bs ≠ [] := by
  rw [blocks_eq, map_eq_ok_iff] at h
  obtain ⟨all, hall, rfl⟩ := h
  refine dropEmptyLast_ne_nil ?_
  have hlen := (blocksAfter_eq_ok_iff.mp hall).length_eq
  rw [length_splitOnP] at hlen
  exact List.ne_nil_of_length_pos (hlen ▸ Nat.succ_pos _)

theorem block_blankSeparators_eq (source : List Char) :
    block (blankSeparators source) =
      (blocksAfter 0 ((lines source).splitOnP isSeparator)).map List.flatten := by
  rw [block_blankSeparators]
  exact blockOfLines_map_blank (fun _ => not_mem_of_mem_lines) 0

theorem blocks_eq_error_iff (source : List Char) (e : LineFault) :
    blocks source = .error e ↔ block (blankSeparators source) = .error e := by
  rw [blocks_eq, block_blankSeparators_eq, map_eq_error_iff, map_eq_error_iff]

theorem block_blankSeparators_eq_error_iff (source : List Char) (e : LineFault) :
    block (blankSeparators source) = .error e ↔
      ∃ before line after, lines source = before ++ line :: after ∧
        e.line = before.length + 1 ∧ isSeparator line = false ∧ Refused line e.fault ∧
        ∀ l ∈ before, isSeparator l = false → ∀ fault, ¬ Refused l fault := by
  rw [block_blankSeparators, blockOfLines_eq_error_iff]
  constructor
  · rintro ⟨_, _, _, hls, hline, hrefused, hbefore⟩
    obtain ⟨before, _, hsource, rfl, htail⟩ := List.map_eq_append_iff.mp hls
    obtain ⟨line, after, rfl, rfl, rfl⟩ := List.map_eq_cons_iff.mp htail
    obtain ⟨hsep, hrefused⟩ := refused_blank_iff.mp hrefused
    rw [List.length_map, Nat.add_comm] at hline
    refine ⟨before, line, after, hsource, hline, hsep, hrefused, ?_⟩
    intro l hl hsep fault h
    exact hbefore (blank l) (List.mem_map_of_mem hl) fault (refused_blank_iff.mpr ⟨hsep, h⟩)
  · rintro ⟨before, line, after, hsource, hline, hsep, hrefused, hbefore⟩
    refine ⟨before.map blank, blank line, after.map blank, ?_, ?_,
      refused_blank_iff.mpr ⟨hsep, hrefused⟩, ?_⟩
    · rw [hsource, List.map_append, List.map_cons]
    · rw [hline, List.length_map, Nat.add_comm]
    · refine List.forall_mem_map.mpr fun l hl fault h => ?_
      obtain ⟨hsep, h⟩ := refused_blank_iff.mp h
      exact hbefore l hl hsep fault h

/-- A listing of blocks is read as it is with its separators blanked, as one block. Of
both the first line is blamed that is refused and is no separator. If none is, the
blocks hold the instructions in order, each those of the lines from one separator to
the next, and there is one for each separator and one more, unless the listing ends in
a separator. Carriage returns change nothing. -/
theorem blocks_blankSeparators (source : List Char) :
    (∀ e, blocks source = .error e ↔ block (blankSeparators source) = .error e) ∧
      (∀ e, blocks source = .error e ↔
        ∃ before line after, lines source = before ++ line :: after ∧
          e.line = before.length + 1 ∧ isSeparator line = false ∧ Refused line e.fault ∧
          ∀ l ∈ before, isSeparator l = false → ∀ fault, ¬ Refused l fault) ∧
      (∀ bs : List (List Instruction), blocks source = .ok bs →
        block (blankSeparators source) = .ok bs.flatten ∧
        (∀ (i : Nat) (b : List Instruction), bs[i]? = some b → ∃ piece,
          ((lines source).splitOnP isSeparator)[i]? = some piece ∧
            block (unlines piece) = .ok b) ∧
        (EndsInSeparator (lines source) → bs.length = (lines source).countP isSeparator) ∧
        (¬ EndsInSeparator (lines source) →
          bs.length = (lines source).countP isSeparator + 1)) ∧
      blocks (withReturns source) = blocks source := by
  refine ⟨blocks_eq_error_iff source, ?_, ?_, blocks_withReturns source⟩
  · intro e
    rw [blocks_eq_error_iff, block_blankSeparators_eq_error_iff]
  · intro bs h
    rw [blocks_eq, map_eq_ok_iff] at h
    obtain ⟨all, hall, rfl⟩ := h
    have hlast := lastEmpty_iff hall
    have hlen : all.length = (lines source).countP isSeparator + 1 := by
      rw [← (blocksAfter_eq_ok_iff.mp hall).length_eq, length_splitOnP]
    refine ⟨?_, ?_, ?_, ?_⟩
    · rw [block_blankSeparators_eq, hall, flatten_dropEmptyLast]
      rfl
    · intro i b hb
      obtain ⟨hi, hget⟩ := List.getElem?_eq_some_iff.mp (getElem?_of_dropEmptyLast hb)
      have hread := blocksAfter_eq_ok_iff.mp hall
      have hpiece := hread.length_eq ▸ hi
      refine ⟨_, List.getElem?_eq_getElem hpiece, ?_⟩
      exact hget ▸ hread.get hpiece hi
    · intro hends
      rw [length_dropEmptyLast, if_pos (hlast.mpr hends), hlen, Nat.add_sub_cancel]
    · intro hends
      rw [length_dropEmptyLast, if_neg (mt hlast.mp hends), hlen]

/-- Three separators, with an empty block between the first two and only a comment
after the last; and an unknown mnemonic after a separator. -/
theorem blocks_blankSeparators_empty_and_faulty :
    let mov : Instruction := .binary .mov (.reg ⟨0⟩) (.reg ⟨1⟩)
    let neg : Instruction := .unary .neg (.reg ⟨0⟩)
    let source := "MOV R0, R1 # copy\n---\n\n---\r\nNEG R0\n --- \n# end".toList
    let faulty := "MOV R0, R1\n---\n\n NOVE R0 # here\n".toList
    blocks source = .ok [[mov], [], [neg]] ∧
      EndsInSeparator (lines source) ∧ (lines source).countP isSeparator = 3 ∧
      block (blankSeparators source) = .ok [mov, neg] ∧
      blocks (withReturns source) = .ok [[mov], [], [neg]] ∧
      block (blankSeparators faulty) = .error ⟨4, .unknownMnemonic "NOVE".toList⟩ ∧
      blocks faulty = .error ⟨4, .unknownMnemonic "NOVE".toList⟩ := by
  intro mov neg source faulty
  obtain ⟨_, _, hok, hreturns⟩ := blocks_blankSeparators source
  have hblocks : blocks source = .ok [[mov], [], [neg]] := rfl
  have hends : EndsInSeparator (lines source) := ⟨by decide, by decide⟩
  obtain ⟨hblank, _, hlen, _⟩ := hok _ hblocks
  have hfaulty : block (blankSeparators faulty) = .error ⟨4, .unknownMnemonic "NOVE".toList⟩ := rfl
  exact ⟨hblocks, hends, (hlen hends).symm, hblank, hreturns.trans hblocks, hfaulty,
    ((blocks_blankSeparators faulty).1 _).mpr hfaulty⟩

end TwoAddress.Assembly
