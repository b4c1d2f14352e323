/-
# `Proofs.Assembly.Printed` — listings are read as they were printed

A listing is printed block by block, each instruction on a line of its own and a line
of three hyphens between one block and the next. Reading it goes through all that a
listing may contain besides: comments, blanks around an instruction, empty lines. An
instruction is written with none of it (`code_render`, `isSeparator_render`), so the
lines are those that were put together, the separators are found where they were put
(`splitOnP_intercalate`), and each block is read back instruction by instruction.

Two things are not read back. An address that is a lone index of scale one comes back in
its normal form, and an empty block at the end of a listing is not seen. What is read is
the listing up to these two (`blocks_listing_eq`), and they are all that keeps it from
being read as itself.
-/
import TwoAddress.Block
import TwoAddress.Proofs.Assembly.Listing
import TwoAddress.Proofs.Assembly.RoundTrip

namespace TwoAddress

open Text

/-! ## Characters of instructions -/

/-- A character of an instruction: neither a control character nor the beginning of a
comment. -/
def Text.Printable (c : Char) : Prop :=
  0x20 ≤ c.toNat ∧ c ≠ '#'

instance : DecidablePred Printable := fun _ => inferInstanceAs (Decidable (_ ∧ _))

theorem Text.Solid.printable {c : Char} (h : Solid c) : Printable c :=
  ⟨Nat.le_of_succ_le h.1.1, h.ne (by decide)⟩

theorem Text.le_of_all {text : List Char} (h : text.all (0x20 ≤ ·.toNat) = true) :
    ∀ c ∈ text, 0x20 ≤ c.toNat :=
  fun c hc => of_decide_eq_true (List.all_eq_true.mp h c hc)

theorem Operand.printable_render (o : Operand) : ∀ c ∈ o.render, Printable c := by
  rcases o.render_cases with ⟨_, h⟩ | ⟨w, hw, h⟩
  · exact fun c hc => (h c hc).printable
  · rw [hw]
    refine List.forall_mem_cons.mpr ⟨by decide, List.forall_mem_append.mpr ⟨?_, ?_⟩⟩
    · exact fun c hc => (h c hc).printable
    · exact List.forall_mem_singleton.mpr (by decide)

theorem Operand.printable_renderAll : ∀ os : List Operand, ∀ c ∈ renderAll os, Printable c
  | [] => fun _ h => nomatch h
  | [o] => o.printable_render
  | o :: p :: rest => by
      have hrest := printable_renderAll (p :: rest)
      refine List.forall_mem_append.mpr ⟨o.printable_render, ?_⟩
      exact List.forall_mem_cons.mpr ⟨by decide, List.forall_mem_cons.mpr ⟨by decide, hrest⟩⟩

namespace Instruction

theorem printable_render (ins : Instruction) : ∀ c ∈ ins.render, Printable c := by
  have hop : ∀ c ∈ ins.opcode.render, Printable c :=
    fun c hc => (ins.opcode.solid_render.2 c hc).printable
  rw [render]
  split
  case h_1 => exact hop
  case h_2 =>
    exact List.forall_mem_append.mpr
      ⟨hop, List.forall_mem_cons.mpr ⟨by decide, Operand.printable_renderAll _⟩⟩

theorem exists_render (ins : Instruction) :
    ∃ c rest, ins.render = c :: rest ∧ Solid c ∧ c ≠ '-' := by
  obtain ⟨hne, hsolid⟩ := ins.opcode.solid_render
  obtain ⟨c, w, hop⟩ := List.exists_cons_of_ne_nil hne
  have hminus : c ≠ '-' := by
    rintro rfl
    exact ins.opcode.head?_render (hop ▸ rfl)
  have hc : Solid c := hsolid c (hop ▸ List.mem_cons_self)
  rw [render]
  split
  case h_1 => exact ⟨c, w, hop, hc, hminus⟩
  case h_2 =>
    rw [hop]
    exact ⟨c, _, rfl, hc, hminus⟩

end Instruction

namespace Assembly

variable {ins : Instruction} {b : List Instruction} {bs : List (List Instruction)}

/-! ## The line of an instruction -/

theorem isSeparator_cons {c : Char} (hblank : isBlank c = false) (hc : c ≠ '-')
    (rest : List Char) : isSeparator (c :: rest) = false := by
  obtain ⟨more, hmore⟩ := trim_cons hblank rest
  rw [isSeparator, hmore]
  exact beq_eq_false_iff_ne.mpr fun h => hc (List.cons.inj h).1

theorem isSeparator_render (ins : Instruction) : isSeparator ins.render = false := by
  obtain ⟨c, rest, hrender, hc, hminus⟩ := ins.exists_render
  rw [hrender]
  exact isSeparator_cons hc.isBlank hminus rest

theorem code_render (ins : Instruction) : code ins.render = ins.render := by
  have hkeep : ins.render.takeWhile (· != '#') = ins.render :=
    List.takeWhile_eq_self_iff.mpr fun c hc => bne_iff_ne.mpr (ins.printable_render c hc).2
  rw [code, hkeep, (edged_render ins).trim_eq]

/-! ## The lines of a listing -/

/-- A block as text, an instruction on a line. This is how lowered code is printed. -/
def layout (b : List Instruction) : List Char :=
  unlines (b.map Instruction.render)

/-- Blocks as text, with a line of three hyphens between one and the next. -/
def listing (bs : List (List Instruction)) : List Char :=
  "---\n".toList.intercalate (bs.map layout)

theorem isSeparator_separator : isSeparator separator = true := by decide

theorem listing_eq (bs : List (List Instruction)) :
    listing bs = unlines ([separator].intercalate (bs.map (·.map Instruction.render))) := by
  induction bs with
  | nil => rfl
  | cons b rest ih =>
      by_cases hnil : rest = []
      · rw [hnil, listing, List.map_singleton, List.map_singleton, List.intercalate_singleton,
          List.intercalate_singleton]
        rfl
      · have hne {β : Type} (f : List Instruction → β) : rest.map f ≠ [] := by simpa using hnil
        rw [listing] at ih
        rw [listing, List.map_cons, List.map_cons, List.intercalate_cons_of_ne_nil (hne _),
          List.intercalate_cons_of_ne_nil (hne _), ih, unlines, unlines, List.flatMap_append,
          List.flatMap_append]
        rfl

theorem lines_listing (bs : List (List Instruction)) :
    lines (listing bs) = [separator].intercalate (bs.map (·.map Instruction.render)) := by
  rw [listing_eq]
  refine lines_unlines ?_
  intro l hl
  rcases mem_of_mem_intercalate hl with rfl | ⟨piece, hpiece, hl⟩
  · exact le_of_all rfl
  · obtain ⟨b, _, rfl⟩ := List.mem_map.mp hpiece
    obtain ⟨ins, _, rfl⟩ := List.mem_map.mp hl
    exact fun c hc => (ins.printable_render c hc).1

theorem pieces_listing (h : bs ≠ []) :
    (lines (listing bs)).splitOnP isSeparator = bs.map (·.map Instruction.render) := by
  have hlines : ∀ piece ∈ bs.map (·.map Instruction.render), ∀ l ∈ piece, isSeparator l = false :=
    List.forall_mem_map.mpr fun b _ => List.forall_mem_map.mpr fun ins _ => isSeparator_render ins
  rw [lines_listing]
  exact splitOnP_intercalate isSeparator_separator (by simpa using h) hlines

/-! ## Reading what was printed -/

/-- A block is read back up to the normal forms of its addresses. -/
theorem block_layout (b : List Instruction) :
    block (layout b) = .ok (b.map Instruction.normal) := by
  have hline (ins : Instruction) : '\n' ∉ ins.render := fun hmem =>
    absurd (ins.printable_render _ hmem) (by decide)
  have hcode : (b.map Instruction.render).map code = b.map Instruction.render := by
    rw [List.map_map]
    exact List.map_congr_left fun ins _ => code_render ins
  have hkeep : (b.map Instruction.render).filter (· ≠ []) = b.map Instruction.render := by
    refine List.filter_eq_self.mpr (List.forall_mem_map.mpr fun ins _ => ?_)
    exact decide_eq_true (edged_render ins).ne_nil
  rw [block, layout, blockAfter_unlines (List.forall_mem_map.mpr fun ins _ => hline ins),
    blockOfLines_eq_ok_iff, hcode, hkeep, List.forall₂_map_left_iff, List.forall₂_map_right_iff,
    List.forall₂_same]
  exact fun ins _ => read_render ins

/-- A listing is read back up to the normal forms of its addresses and an empty block at
its end. -/
theorem blocks_listing_eq (h : bs ≠ []) :
    blocks (listing bs) = .ok (dropEmptyLast (bs.map (·.map Instruction.normal))) := by
  rw [blocks_eq, pieces_listing h, map_eq_ok_iff]
  refine ⟨_, blocksAfter_eq_ok_iff.mpr ?_, rfl⟩
  rw [List.forall₂_map_left_iff, List.forall₂_map_right_iff, List.forall₂_same]
  exact fun b _ => block_layout b

/-! ## What is read back as itself -/

/-- No address of the block is an index of scale one without a base. -/
def NoLoneIndex (b : List Instruction) : Prop :=
  ∀ ins ∈ b, ∀ a, .mem a ∈ ins.operands → ¬ a.LoneIndex

theorem map_eq_self_iff {α : Type} {f : α → α} {xs : List α} :
    xs.map f = xs ↔ ∀ x ∈ xs, f x = x := by
  rw [← List.map_inj_left, List.map_id']

theorem map_normal_eq_self_iff : b.map Instruction.normal = b ↔ NoLoneIndex b := by
  rw [map_eq_self_iff]
  exact forall₂_congr fun ins _ => Instruction.normal_eq_self_iff

theorem dropEmptyLast_eq_iff {as : List (List Instruction)} (hlen : as.length = bs.length) :
    dropEmptyLast as = bs ↔ as = bs ∧ ¬ (1 < bs.length ∧ bs.getLast? = some []) := by
  rcases dropEmptyLast_cases as with ⟨hkept, h⟩ | ⟨hdropped, h⟩
  · rw [h]
    constructor
    · rintro rfl
      exact ⟨rfl, hkept⟩
    · exact And.left
  · refine iff_of_false ?_ ?_
    · intro heq
      have hlonger := congrArg List.length h
      rw [heq, List.length_append, List.length_singleton, hlen] at hlonger
      omega
    · rintro ⟨rfl, hkept⟩
      exact hkept hdropped

/-- A listing of blocks is read back as these blocks exactly if there are any, the last
is not empty unless it is the only one, and no address is an index of scale one without
a base. Lowered code, as it is printed, is read back under the last condition. -/
theorem blocks_listing (bs : List (List Instruction)) (out : LoweredBlock) :
    (blocks (listing bs) = .ok bs ↔
      bs ≠ [] ∧ (bs.length = 1 ∨ bs.getLast? ≠ some []) ∧ ∀ b ∈ bs, NoLoneIndex b) ∧
      (block out.render = .ok out.instructions ↔ NoLoneIndex out.instructions) := by
  refine ⟨?_, ?_⟩
  · by_cases hne : bs = []
    · exact iff_of_false (fun h => blocks_ne_nil h hne) (fun h => h.1 hne)
    · have hlen := List.length_pos_of_ne_nil hne
      have hlast : ¬ (1 < bs.length ∧ bs.getLast? = some []) ↔
          bs.length = 1 ∨ bs.getLast? ≠ some [] := by
        rw [Classical.not_and_iff_not_or_not, Nat.not_lt]
        exact or_congr_left ⟨fun h => Nat.le_antisymm h hlen, fun h => h.le⟩
      have hnormal : bs.map (·.map Instruction.normal) = bs ↔ ∀ b ∈ bs, NoLoneIndex b := by
        rw [map_eq_self_iff]
        exact forall₂_congr fun b _ => map_normal_eq_self_iff
      rw [blocks_listing_eq hne, Except.ok.injEq, dropEmptyLast_eq_iff (List.length_map _), hnormal,
        hlast, and_comm, and_iff_right hne]
  · have hprint : out.render = layout out.instructions := rfl
    rw [hprint, block_layout, Except.ok.injEq, map_normal_eq_self_iff]

/-- An empty block between two others shows by its separators alone. -/
example : listing [[.unary .neg (.reg ⟨0⟩)], [], [.unary .neg (.reg ⟨1⟩)]] =
    "NEG R0\n---\n---\nNEG R1\n".toList := by
  decide +kernel

end Assembly

end TwoAddress
