/-
# `Proofs.Assembly.Mnemonic` — opcodes are read as they were written

A declared opcode is written as its name, and reading looks through the tables
of names for it. That the first name found belongs to the very opcode is a
property of the tables (`ofName?_declared`). An opcode without a name is written
as `Op<operands>(<code>)`, and here the tables matter again: none of their names
begins with `Op`, so the placeholder is never taken for one.
-/
import TwoAddress.Assembly.Printer
import TwoAddress.Assembly.Reader
import TwoAddress.Proofs.Opcode.Tables
import TwoAddress.Proofs.Text.Words

namespace TwoAddress

namespace Opcode

open Numeral Text

variable {tier : Tier} {op : Opcode tier} {name : String}

theorem toString_of_name? (h : op.name? = some name) : op.toString = name := by
  rw [toString, h]

theorem render_of_undeclared (h : op.name? = none) :
    op.render = 'O' :: 'p' :: (ofNat tier.arity ++ '(' :: ofNat op.code.toNat ++ [')']) := by
  have htext (s : String) : ToString.toString s = s := rfl
  rw [render, toString, h]
  simp [ofNat, htext]

theorem solid_declared : ∀ x ∈ declared tier, x.2.toList ≠ [] ∧ ∀ c ∈ x.2.toList, Solid c := by
  have table : ∀ x ∈ declared tier, x.2.toList ≠ [] ∧ x.2.toList.all (decide <| Solid ·) = true := by
    cases tier <;> decide
  intro x hx
  obtain ⟨hne, hall⟩ := table x hx
  exact ⟨hne, fun c hc => of_decide_eq_true (List.all_eq_true.mp hall c hc)⟩

theorem declared_not_placeholder : ∀ x ∈ declared tier, x.2.toList.take 2 ≠ ['O', 'p'] := by
  cases tier <;> decide

theorem solid_render (op : Opcode tier) : op.render ≠ [] ∧ ∀ c ∈ op.render, Solid c := by
  cases h : op.name? with
  | some name =>
      rw [render, toString_of_name? h]
      exact solid_declared _ (mem_declared_of_name? h)
  | none =>
      rw [render_of_undeclared h]
      refine ⟨List.cons_ne_nil _ _, List.forall_mem_cons.mpr ⟨by decide, ?_⟩⟩
      have hclose : ∀ c ∈ [')'], Solid c := List.forall_mem_singleton.mpr (by decide)
      refine List.forall_mem_cons.mpr ⟨by decide, List.forall_mem_append.mpr ⟨?_, hclose⟩⟩
      exact List.forall_mem_append.mpr
        ⟨solid_ofNat _, List.forall_mem_cons.mpr ⟨by decide, solid_ofNat _⟩⟩

theorem head?_render (op : Opcode tier) : op.render.head? ≠ some '-' := by
  cases h : op.name? with
  | some name =>
      have table : ∀ x ∈ declared tier, x.2.toList.head? ≠ some '-' := by
        cases tier <;> decide
      rw [render, toString_of_name? h]
      exact table _ (mem_declared_of_name? h)
  | none =>
      rw [render_of_undeclared h, List.head?_cons]
      decide

theorem ofMnemonic?_of_placeholder (h : name.toList.take 2 = ['O', 'p']) :
    ofMnemonic? tier name = none := by
  unfold ofMnemonic?
  split
  case h_1 => exact absurd h (by decide)
  case h_2 =>
    have hfind : (declared tier).find? (·.2 == name) = none := by
      refine List.find?_eq_none.mpr ?_
      intro x hx hname
      obtain rfl := beq_iff_eq.mp hname
      exact declared_not_placeholder x hx h
    rw [ofName?, hfind]
    rfl

end Opcode

namespace Assembly.Mnemonic

open Numeral Text

variable {tier : Tier} {op : Opcode tier}

theorem ofName?_declared : ∀ x ∈ Opcode.declared tier, ofName? x.2 = some ⟨tier, x.1⟩ := by
  refine List.map_inj_left.mp ?_
  cases tier <;> rfl

theorem ofName?_of_placeholder {name : String} (h : name.toList.take 2 = ['O', 'p']) :
    ofName? name = none := by
  refine List.findSome?_eq_none_iff.mpr ?_
  intro tier _
  rw [Opcode.ofMnemonic?_of_placeholder h]
  rfl

theorem tier?_ofNat (tier : Tier) : tier? (ofNat tier.arity) = some tier := by
  cases tier <;> rfl

theorem ofCode?_placeholder (tier : Tier) (code : UInt8) :
    ofCode? ('O' :: 'p' :: (ofNat tier.arity ++ '(' :: ofNat code.toNat ++ [')'])) =
      some ⟨tier, ⟨code⟩⟩ := by
  have hdigits : ∀ c ∈ ofNat tier.arity, (c != '(') = true := (digits_ofNat _).bne (by decide)
  simp only [ofCode?, List.getLast?_concat, List.dropLast_concat,
    span_append_cons hdigits (by decide : ('(' != '(') = false), tier?_ofNat, uint8?_ofNat]
  rfl

/-- A written opcode is read as itself, whether it has a name or not. -/
theorem ofWord?_render (op : Opcode tier) : ofWord? op.render = some ⟨tier, op⟩ := by
  cases h : op.name? with
  | some name =>
      have hname := ofName?_declared _ (Opcode.mem_declared_of_name? h)
      rw [Opcode.render, Opcode.toString_of_name? h, ofWord?, String.ofList_toList, hname]
      rfl
  | none =>
      rw [Opcode.render_of_undeclared h, ofWord?, ofCode?_placeholder, ofName?_of_placeholder]
      · rfl
      · rw [String.toList_ofList]
        rfl

end Assembly.Mnemonic

end TwoAddress
