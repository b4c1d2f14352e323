/-
# `Proofs.Assembly.RoundTrip` — instructions are read as they were written

Reading undoes writing up to the normal form of addresses (`read_render`), for
each instruction there is: of any tier, with a declared opcode or not, and with
any registers, immediates and addresses.

The layers of the reader are gone through from the inside out. An operand is
read back on its own. A row of operands is cut at the commas between them, since
the commas are outside all brackets and no operand holds one. A line is cut at
its first blank, since the mnemonic holds none.
-/
import TwoAddress.Proofs.Assembly.Mnemonic
import TwoAddress.Proofs.Assembly.Sum

namespace TwoAddress

open Assembly Numeral Text

variable {o : Operand} {os : List Operand} {ins : Instruction}

/-! ## One operand -/

theorem Reg.solid_render (r : Reg) : ∀ c ∈ r.render, Solid c :=
  fun c h => (termChar_reg r c h).solid

theorem Address.solid_terms (a : Address) : ∀ c ∈ writeTerms a.terms, Solid c :=
  solid_writeTerms a.plain_terms

namespace Operand

theorem render_cases (o : Operand) :
    (o.render ≠ [] ∧ ∀ c ∈ o.render, Solid c) ∨
      ∃ w, o.render = '[' :: (w ++ [']']) ∧ ∀ c ∈ w, Solid c := by
  cases o with
  | reg r => exact .inl ⟨List.cons_ne_nil _ _, r.solid_render⟩
  | mem a => exact .inr ⟨_, a.render_eq, a.solid_terms⟩
  | imm v =>
      refine .inl ⟨?_, solid_ofInt v.toInt⟩
      rw [render, ofInt]
      split
      · exact List.cons_ne_nil _ _
      · exact (digits_ofNat _).ne_nil

theorem edged_render (o : Operand) : Edged o.render := by
  rcases o.render_cases with ⟨hne, h⟩ | ⟨w, hw, _⟩
  · exact edged_of_solid hne h
  · have hopen : Edged ['['] := edged_singleton (by decide)
    have hclose : Edged [']'] := edged_singleton (by decide)
    rw [hw]
    exact hopen.join hclose w

end Operand

namespace Assembly

theorem bracketed?_render (a : Address) : bracketed? a.render = some (writeTerms a.terms) := by
  rw [a.render_eq, bracketed?, List.getLast?_concat, if_pos rfl, List.dropLast_concat]

theorem bracketed?_of_solid {w : List Char} (h : ∀ c ∈ w, Solid c) : bracketed? w = none := by
  unfold bracketed?
  split
  case h_1 => exact absurd rfl ((h '[' List.mem_cons_self).ne (by decide))
  case h_2 => rfl

theorem register?_ofInt (i : Int) : register? (ofInt i) = none := by
  rw [ofInt]
  split
  case isTrue => rfl
  case isFalse => exact register?_of_digits (digits_ofNat _)

theorem operand_render (o : Operand) : operand o.render = .ok o.normal := by
  cases o with
  | reg r =>
      simp only [operand, Operand.render, bracketed?_of_solid r.solid_render, register?_render]
      rfl
  | mem a =>
      simp only [operand, Operand.render, bracketed?_render, address_writeTerms]
      rfl
  | imm v =>
      simp only [operand, Operand.render, bracketed?_of_solid (solid_ofInt _), register?_ofInt,
        int64?_ofInt]
      rfl

theorem mapM_operand_render (os : List Operand) :
    (os.map Operand.render).mapM operand = .ok (os.map Operand.normal) := by
  induction os with
  | nil => rfl
  | cons o rest ih =>
      rw [List.map_cons, List.mapM_cons, operand_render, ih]
      rfl

/-! ## A row of operands -/

theorem balanced_append {w : List Char} (h : ∀ c ∈ w, Solid c) (inside : Bool)
    (rest : List Char) : balanced inside (w ++ rest) = balanced inside rest := by
  induction w with
  | nil => rfl
  | cons c w ih =>
      obtain ⟨hc, hw⟩ := List.forall_mem_cons.mp h
      rw [List.cons_append, balanced]
      · exact ih hw
      · exact hc.ne (by decide)
      · exact hc.ne (by decide)

theorem balanced_operand (o : Operand) (rest : List Char) :
    balanced false (o.render ++ rest) = balanced false rest := by
  rcases o.render_cases with ⟨_, h⟩ | ⟨w, hw, h⟩
  · exact balanced_append h false rest
  · rw [hw, List.cons_append, List.append_assoc, balanced, balanced_append h]
    rfl

theorem balanced_renderAll (os : List Operand) : balanced false (Operand.renderAll os) = true := by
  induction os with
  | nil => rfl
  | cons o rest ih =>
      cases rest with
      | nil =>
          have hlast := balanced_operand o []
          rwa [List.append_nil] at hlast
      | cons o' more =>
          rw [Operand.renderAll_cons_cons, balanced_operand]
          exact ih

theorem splitOutside_append {w : List Char} (h : ∀ c ∈ w, Solid c) {inside : Bool}
    {rest piece : List Char} {more : List (List Char)}
    (hrest : splitOutside inside rest = piece :: more) :
    splitOutside inside (w ++ rest) = (w ++ piece) :: more := by
  induction w with
  | nil => exact hrest
  | cons c w ih =>
      obtain ⟨hc, hw⟩ := List.forall_mem_cons.mp h
      have hcomma : ¬ (c = ',' ∧ inside = false) := fun e => hc.ne (by decide) e.1
      have hopen : c ≠ '[' := hc.ne (by decide)
      have hclose : c ≠ ']' := hc.ne (by decide)
      simp only [List.cons_append, splitOutside, if_neg hcomma, if_neg hopen, if_neg hclose, ih hw]

theorem splitOutside_operand (o : Operand) {rest piece : List Char} {more : List (List Char)}
    (hrest : splitOutside false rest = piece :: more) :
    splitOutside false (o.render ++ rest) = (o.render ++ piece) :: more := by
  rcases o.render_cases with ⟨_, h⟩ | ⟨w, hw, h⟩
  · exact splitOutside_append h hrest
  · have hclose : splitOutside true (']' :: rest) = (']' :: piece) :: more := by
      simp [splitOutside, hrest]
    have hword := splitOutside_append h hclose
    have hopen : splitOutside false ('[' :: (w ++ ']' :: rest)) =
        ('[' :: (w ++ ']' :: piece)) :: more := by
      simp [splitOutside, hword]
    rw [hw]
    simpa using hopen

/-- Operands are cut apart at the commas, each but the first with the blank
before it. -/
theorem splitOutside_renderAll (o : Operand) (os : List Operand) :
    splitOutside false (Operand.renderAll (o :: os)) =
      o.render :: os.map (' ' :: ·.render) := by
  induction os generalizing o with
  | nil =>
      have hlast := splitOutside_operand o (rfl : splitOutside false [] = [] :: [])
      rwa [List.append_nil] at hlast
  | cons o' rest ih =>
      have hblank : splitOutside false (' ' :: Operand.renderAll (o' :: rest)) =
          (' ' :: o'.render) :: rest.map (' ' :: ·.render) := by
        simp [splitOutside, ih o']
      have hcomma : splitOutside false (',' :: ' ' :: Operand.renderAll (o' :: rest)) =
          [] :: (' ' :: o'.render) :: rest.map (' ' :: ·.render) := by
        rw [splitOutside, if_pos ⟨rfl, rfl⟩, hblank]
      rw [Operand.renderAll_cons_cons, splitOutside_operand o hcomma, List.append_nil,
        List.map_cons]

theorem trim_pieces (o : Operand) (os : List Operand) :
    (o.render :: os.map (' ' :: ·.render)).map trim = (o :: os).map Operand.render := by
  have hpiece (o : Operand) : trim (' ' :: o.render) = o.render := by
    rw [trim_cons_blank (by decide), o.edged_render.trim_eq]
  simp [o.edged_render.trim_eq, hpiece, Function.comp_def]

theorem operandTexts_renderAll (hne : os ≠ []) :
    operandTexts (Operand.renderAll os) = .ok (os.map Operand.render) := by
  cases os with
  | nil => exact absurd rfl hne
  | cons o rest =>
      have hfull : ((o :: rest).map Operand.render).any List.isEmpty = false := by
        refine List.any_eq_false.mpr ?_
        intro text htext
        obtain ⟨o', _, rfl⟩ := List.mem_map.mp htext
        simp [o'.edged_render.ne_nil]
      simp only [operandTexts, balanced_renderAll, splitOutside_renderAll, trim_pieces, hfull]
      rfl

/-! ## A line -/

theorem edged_renderAll (hne : os ≠ []) : Edged (Operand.renderAll os) := by
  induction os with
  | nil => exact absurd rfl hne
  | cons o rest ih =>
      cases rest with
      | nil => exact o.edged_render
      | cons o' more =>
          have hrest := ih (List.cons_ne_nil _ _)
          exact o.edged_render.join hrest [',', ' ']

theorem edged_opcode (ins : Instruction) : Edged ins.opcode.render :=
  edged_of_solid ins.opcode.solid_render.1 ins.opcode.solid_render.2

theorem not_blank_opcode (ins : Instruction) : ∀ c ∈ ins.opcode.render, (!isBlank c) = true := by
  intro c hc
  simp [(ins.opcode.solid_render.2 c hc).isBlank]

theorem render_of_operands (h : ins.operands ≠ []) :
    ins.render = ins.opcode.render ++ ' ' :: Operand.renderAll ins.operands := by
  unfold Instruction.render
  split
  case h_1 hnil => exact absurd hnil h
  case h_2 => rfl

theorem render_of_no_operands (h : ins.operands = []) : ins.render = ins.opcode.render := by
  unfold Instruction.render
  rw [h]

theorem edged_render (ins : Instruction) : Edged ins.render := by
  by_cases h : ins.operands = []
  · rw [render_of_no_operands h]
    exact edged_opcode ins
  · rw [render_of_operands h]
    exact (edged_opcode ins).join (edged_renderAll h) [' ']

/-- Reading undoes writing up to the normal form of addresses. -/
theorem read_render (ins : Instruction) : instruction ins.render = .ok ins.normal := by
  have hnormal : Instruction.ofOperands? ins.tier ins.opcode (ins.operands.map Operand.normal) =
      some ins.normal := Instruction.ofOperands?_map _ ins
  by_cases h : ins.operands = []
  · have hcut := span_of_forall (not_blank_opcode ins)
    have hins : Instruction.ofOperands? ins.tier ins.opcode [] = some ins.normal := by
      rwa [h] at hnormal
    simp only [instruction, render_of_no_operands h, (edged_opcode ins).trim_eq, hcut,
      Mnemonic.ofWord?_render, trim_nil, List.isEmpty_nil, if_true, pure_bind, hins]
  · have hall := edged_renderAll h
    have hcut : ins.render.span (!isBlank ·) =
        (ins.opcode.render, ' ' :: Operand.renderAll ins.operands) := by
      rw [render_of_operands h]
      exact span_append_cons (not_blank_opcode ins) (by decide)
    have hrest : trim (' ' :: Operand.renderAll ins.operands) = Operand.renderAll ins.operands := by
      rw [trim_cons_blank (by decide), hall.trim_eq]
    have hfull : (Operand.renderAll ins.operands).isEmpty = false := by simp [hall.ne_nil]
    simp only [instruction, (edged_render ins).trim_eq, hcut, Mnemonic.ofWord?_render, hrest, hfull,
      Bool.false_eq_true, if_false, operandTexts_renderAll h, mapM_operand_render, hnormal,
      Bind.bind, Except.bind]

/-- A written instruction is read back, and what is read is its normal form. That
is the instruction itself unless one of its addresses is an index of scale one
without a base; and it is written just like the instruction, so writing what has
been read changes nothing. -/
theorem instruction_render (ins : Instruction) :
    instruction ins.render = .ok ins.normal ∧
      (instruction ins.render = .ok ins ↔
        ∀ a, .mem a ∈ ins.operands → ¬ (a.base = none ∧ ∃ r, a.index = some ⟨r, 1⟩)) ∧
      ins.normal.render = ins.render ∧
      ∀ read, instruction ins.render = .ok read → read.render = ins.render := by
  have hread := read_render ins
  refine ⟨hread, ?_, ins.render_normal, ?_⟩
  · rw [hread, Except.ok.injEq]
    exact Instruction.normal_eq_self_iff
  · intro read h
    obtain rfl := Except.ok.inj (hread.symm.trans h)
    exact ins.render_normal

end Assembly

end TwoAddress
