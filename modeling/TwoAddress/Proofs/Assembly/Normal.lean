/-
# `Proofs.Assembly.Normal` — addresses that are written alike

A scale of one is not written, so an index of scale one without a base looks
like a base: `[R1]` and `[R1*1]` are the same text once written. Of all
addresses these are the only ones that share their text. The normal form of an
address makes such a lone index its base; it is written as the address is, and
it differs from the address exactly if the index is lone.
-/
import TwoAddress.Assembly.Printer

namespace TwoAddress

namespace Address

variable {a : Address}

/-- The address has an index of scale one and no base. -/
def LoneIndex (a : Address) : Prop :=
  a.base = none ∧ ∃ r, a.index = some ⟨r, 1⟩

/-- The address with a lone index made its base. -/
def normal (a : Address) : Address :=
  match a.base, a.index with
  | none, some x => if x.scale = 1 then ⟨some x.reg, none, a.disp⟩ else a
  | _, _ => a

theorem normal_eq_self_iff : a.normal = a ↔ ¬ a.LoneIndex := by
  rcases a with ⟨_ | b, _ | ⟨r, k⟩, d⟩
  · simp [normal, LoneIndex]
  · simp only [normal, LoneIndex]
    split <;> simp_all
  · simp [normal, LoneIndex]
  · simp [normal, LoneIndex]

theorem normal_disp (a : Address) : a.normal.disp = a.disp := by
  rw [normal]
  split
  · split <;> rfl
  · rfl

theorem render_normal (a : Address) : a.normal.render = a.render := by
  by_cases h : a.LoneIndex
  · obtain ⟨_, _, d⟩ := a
    obtain ⟨rfl, r, rfl⟩ := h
    have hregs : r.render = ScaledReg.render ⟨r, 1⟩ := (List.append_nil _).symm
    exact congrArg (fun regs => '[' :: regs ++ renderDisp ⟨some r, none, d⟩ ++ [']']) hregs
  · rw [normal_eq_self_iff.mpr h]

end Address

namespace Operand

def normal : Operand → Operand
  | mem a => mem a.normal
  | o => o

theorem normal_eq_self_iff {o : Operand} : o.normal = o ↔ ∀ a, o = mem a → ¬ a.LoneIndex := by
  cases o with
  | reg r => simp [normal]
  | imm v => simp [normal]
  | mem a => simp [normal, Address.normal_eq_self_iff]

theorem render_normal (o : Operand) : o.normal.render = o.render := by
  cases o with
  | reg r => rfl
  | imm v => rfl
  | mem a => exact a.render_normal

theorem renderAll_cons_cons (o o' : Operand) (rest : List Operand) :
    renderAll (o :: o' :: rest) = o.render ++ ',' :: ' ' :: renderAll (o' :: rest) := rfl

theorem renderAll_map {f : Operand → Operand} {os : List Operand}
    (h : ∀ o ∈ os, (f o).render = o.render) : renderAll (os.map f) = renderAll os := by
  induction os with
  | nil => rfl
  | cons o rest ih =>
      obtain ⟨ho, hrest⟩ := List.forall_mem_cons.mp h
      cases rest with
      | nil => exact ho
      | cons o' more =>
          have htail : renderAll (f o' :: more.map f) = renderAll (o' :: more) := ih hrest
          rw [List.map_cons, List.map_cons, renderAll_cons_cons, htail, ho, renderAll_cons_cons]

end Operand

namespace Instruction

variable {ins : Instruction} {f : Operand → Operand}

/-- The instruction with a function applied to each operand. -/
def mapOperands (f : Operand → Operand) : Instruction → Instruction
  | nullary op => nullary op
  | unary op dst => unary op (f dst)
  | binary op dst src => binary op (f dst) (f src)
  | ternary op dst a b => ternary op (f dst) (f a) (f b)
  | quaternary op dst base index scale =>
      quaternary op (f dst) (f base) (f index) (f scale)

theorem ofOperands?_map (f : Operand → Operand) (ins : Instruction) :
    ofOperands? ins.tier ins.opcode (ins.operands.map f) = some (ins.mapOperands f) := by
  cases ins <;> rfl

theorem mapOperands_eq_self_iff : ins.mapOperands f = ins ↔ ∀ o ∈ ins.operands, f o = o := by
  cases ins <;> simp [mapOperands, operands, dst?, sources]

theorem render_mapOperands (h : ∀ o ∈ ins.operands, (f o).render = o.render) :
    (ins.mapOperands f).render = ins.render := by
  have hall := Operand.renderAll_map h
  cases ins with
  | nullary op => rfl
  | unary op => exact congrArg (op.render ++ ' ' :: ·) hall
  | binary op => exact congrArg (op.render ++ ' ' :: ·) hall
  | ternary op => exact congrArg (op.render ++ ' ' :: ·) hall
  | quaternary op => exact congrArg (op.render ++ ' ' :: ·) hall

def normal (ins : Instruction) : Instruction :=
  ins.mapOperands Operand.normal

/-- Only an address with a lone index keeps an instruction from being normal. -/
theorem normal_eq_self_iff :
    ins.normal = ins ↔ ∀ a, .mem a ∈ ins.operands → ¬ a.LoneIndex := by
  simp only [normal, mapOperands_eq_self_iff, Operand.normal_eq_self_iff]
  constructor
  · intro h a ha
    exact h _ ha a rfl
  · rintro h o ho a rfl
    exact h a ho

theorem render_normal (ins : Instruction) : ins.normal.render = ins.render :=
  render_mapOperands fun o _ => o.render_normal

end Instruction

end TwoAddress
