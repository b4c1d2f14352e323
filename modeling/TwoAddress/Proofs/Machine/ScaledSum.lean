/-
# `Proofs.Machine.ScaledSum` — a base and a scaled index as one address

An instruction of four operands computes `base + index * scale`, and a target
has one instruction for it at most: the address computation. So the sum has to
be an address that the target encodes, or the instruction is refused.

Which sums are such addresses is said here by the operands alone
(`AddressingMode.EncodesScaled`). A number takes no field of its own: as the
base it is the displacement, and as the index it is multiplied and added to the
displacement at once. That is done on exact integers, so it matters only whether
the result is a displacement, not what the steps on the way are; and where it is
one, the words would have come to the same (`toInt_mul_add`).

Each step of planning succeeds exactly under one part of that condition
(`exists_baseOf_iff`, `exists_addIndex_iff`, `check_sum_iff`), and the address
that comes out has the value of the sum.
-/
import TwoAddress.Proofs.Assembly.Lowered
import TwoAddress.Proofs.Machine.Address

namespace TwoAddress

/-! ## Displacements -/

/-- The integer is a displacement, a signed number of 32 bits. -/
def IsDisp (i : Int) : Prop := -2 ^ 31 ≤ i ∧ i < 2 ^ 31

theorem exists_int32?_iff {i : Int} : (∃ d, int32? i = some d) ↔ IsDisp i := by
  rw [int32?, IsDisp]
  split
  case isTrue h => exact iff_of_true ⟨_, rfl⟩ h
  case isFalse h =>
    refine iff_of_false ?_ h
    rintro ⟨d, hd⟩
    cases hd

theorem isDisp_toInt (d : Int32) : IsDisp d.toInt := ⟨d.le_toInt, d.toInt_lt⟩

theorem toInt_ofInt_of_isDisp {i : Int} (h : IsDisp i) : (Int64.ofInt i).toInt = i := by
  obtain ⟨hlow, hhigh⟩ := h
  exact Int64.toInt_ofInt_of_le (by omega) (by omega)

/-- The product of two words plus a displacement is exact if it is a displacement
itself. -/
theorem toInt_mul_add {k s : Int64} {d : Int} (hd : IsDisp d)
    (h : IsDisp (k.toInt * s.toInt + d)) :
    (k * s).toInt = k.toInt * s.toInt ∧
      (k * s + Int64.ofInt d).toInt = k.toInt * s.toInt + d := by
  have hmul : (k * s).toInt = k.toInt * s.toInt := by
    obtain ⟨hlow, hhigh⟩ := h
    obtain ⟨hdlow, hdhigh⟩ := hd
    rw [Int64.toInt_mul]
    exact Int.bmod_eq_of_le (by omega) (by omega)
  refine ⟨hmul, ?_⟩
  obtain ⟨hlow, hhigh⟩ := h
  rw [Int64.toInt_add, hmul, toInt_ofInt_of_isDisp hd]
  exact Int.bmod_eq_of_le (by omega) (by omega)

namespace Operand

/-- What can be added a scaled index to. -/
inductive IsBase : Operand → Prop
  | reg (r : Reg) : IsBase (.reg r)
  | mem {a : Address} : a.index = none → IsBase (.mem a)
  | imm {k : Int64} : IsDisp k.toInt → IsBase (.imm k)

/-- The displacement that the operand brings along as a base. -/
def disp : Operand → Int
  | reg _ => 0
  | mem a => a.disp.toInt
  | imm k => k.toInt

theorem IsBase.isDisp {o : Operand} (h : o.IsBase) : IsDisp o.disp := by
  cases h with
  | reg r =>
      have hzero : IsDisp 0 := ⟨by decide, by decide⟩
      exact hzero
  | @mem a _ => exact isDisp_toInt a.disp
  | imm hk => exact hk

end Operand

/-- The displacement of a sum whose index is multiplied by `s`. -/
def scaledDisp (base index : Operand) (s : Int) : Int :=
  match index with
  | .imm k => k.toInt * s + base.disp
  | _ => base.disp

/-- The sum of a base and an index that is multiplied by `s` is an address of the
mode. -/
structure AddressingMode.EncodesScaled (mode : AddressingMode) (base index : Operand)
    (s : Int64) : Prop where
  scale_mem : ∃ k ∈ mode.scales, (k.toNat : Int) = s.toInt
  base_fits : base.IsBase
  index_fits : (∃ r, index = .reg r) ∨
    ∃ k, index = .imm k ∧ IsDisp (k.toInt * s.toInt + base.disp)
  fields_le : base.hasBase.toNat + index.reg?.isSome.toNat +
    (if scaledDisp base index s.toInt = 0 then 0 else 1) ≤ mode.maxFields.toNat

namespace Target

variable {t : Target} {mode : AddressingMode} {ins : Instruction}
  {dst base index scale : Operand} {a sum : Address} {k : UInt8}

/-! ## The steps of planning -/

theorem exists_dispOf_iff {i : Int} : (∃ d, dispOf ins i = .ok d) ↔ IsDisp i := by
  rw [← exists_int32?_iff]
  simp only [dispOf]
  cases int32? i with
  | none => simp
  | some d => simp

theorem exists_baseOf_iff : (∃ a, baseOf ins base = .ok a) ↔ base.IsBase := by
  cases base with
  | reg r => exact iff_of_true ⟨_, rfl⟩ (.reg r)
  | mem b =>
      constructor
      · rintro ⟨a, h⟩
        rw [baseOf] at h
        split at h
        case isTrue hnone => exact .mem (Option.isNone_iff_eq_none.mp hnone)
        case isFalse => cases h
      · intro h
        cases h with
        | mem hnone => exact ⟨b, if_pos (Option.isNone_iff_eq_none.mpr hnone)⟩
  | imm k =>
      constructor
      · rintro ⟨a, h⟩
        obtain ⟨d, hd, _⟩ := bind_eq_ok_iff.mp h
        exact .imm (exists_dispOf_iff.mp ⟨d, hd⟩)
      · intro h
        cases h with
        | imm hk =>
            obtain ⟨d, hd⟩ := exists_dispOf_iff.mpr hk
            exact ⟨_, bind_eq_ok_iff.mpr ⟨d, hd, rfl⟩⟩

theorem disp_of_baseOf (h : baseOf ins base = .ok a) : a.disp.toInt = base.disp := by
  cases base with
  | reg r =>
      cases h
      rfl
  | mem b =>
      rw [baseOf] at h
      split at h
      case isTrue =>
        cases h
        rfl
      case isFalse => cases h
  | imm k =>
      obtain ⟨d, hd, ha⟩ := bind_eq_ok_iff.mp h
      cases ha
      exact Machine.toInt_of_dispOf hd

theorem exists_addIndex_iff :
    (∃ sum, addIndex ins a k index = .ok sum) ↔ (∃ r, index = .reg r) ∨
      ∃ i, index = .imm i ∧ IsDisp (i.toInt * k.toNat + a.disp.toInt) := by
  cases index with
  | reg r => exact iff_of_true ⟨_, rfl⟩ (.inl ⟨r, rfl⟩)
  | mem b => simp [addIndex]
  | imm i =>
      constructor
      · rintro ⟨sum, h⟩
        obtain ⟨d, hd, _⟩ := bind_eq_ok_iff.mp h
        exact .inr ⟨i, rfl, exists_dispOf_iff.mp ⟨d, hd⟩⟩
      · rintro (⟨r, hr⟩ | ⟨i', hi, hdisp⟩)
        · exact nomatch hr
        · cases hi
          obtain ⟨d, hd⟩ := exists_dispOf_iff.mpr hdisp
          exact ⟨_, bind_eq_ok_iff.mpr ⟨d, hd, rfl⟩⟩

theorem addIndex_parts (hnone : a.index = none) (h : addIndex ins a k index = .ok sum) :
    sum.base = a.base ∧ sum.index = index.reg?.map (⟨·, k⟩) ∧
      sum.disp.toInt =
        match index with
        | .imm i => i.toInt * k.toNat + a.disp.toInt
        | _ => a.disp.toInt := by
  cases index with
  | reg r =>
      cases h
      exact ⟨rfl, rfl, rfl⟩
  | mem b => exact nomatch h
  | imm i =>
      obtain ⟨d, hd, hsum⟩ := bind_eq_ok_iff.mp h
      cases hsum
      exact ⟨rfl, hnone, Machine.toInt_of_dispOf hd⟩

theorem fields_eq (a : Address) :
    a.fields = a.base.isSome.toNat + a.index.isSome.toNat +
      if a.disp.toInt = 0 then 0 else 1 := by
  have hlen {α : Type} (o : Option α) : o.toList.length = o.isSome.toNat := by
    cases o <;> rfl
  simp only [Address.fields, hlen, Address.disp_eq_zero_iff]

theorem check_sum_iff {s : Int64} (hk : k ∈ mode.scales) (hs : (k.toNat : Int) = s.toInt)
    (ha : baseOf ins base = .ok a) (hsum : addIndex ins a k index = .ok sum) :
    mode.check sum = .ok () ↔
      base.hasBase.toNat + index.reg?.isSome.toNat +
        (if scaledDisp base index s.toInt = 0 then 0 else 1) ≤ mode.maxFields.toNat := by
  obtain ⟨hnone, hbase⟩ := base_of_baseOf ha
  obtain ⟨hb, hi, hd⟩ := addIndex_parts hnone hsum
  have hdisp : sum.disp.toInt = scaledDisp base index s.toInt := by
    rw [hd, disp_of_baseOf ha, hs]
    cases index <;> rfl
  have hfields : sum.fields = base.hasBase.toNat + index.reg?.isSome.toNat +
      if scaledDisp base index s.toInt = 0 then 0 else 1 := by
    rw [fields_eq, hb, hi, Option.isSome_map, hbase, hdisp]
  rw [AddressingMode.check_eq_ok_iff, AddressingMode.encodes_iff, hfields, and_iff_right_iff_imp]
  intro _ x hx
  obtain ⟨r, _, rfl⟩ := Option.map_eq_some_iff.mp (hi ▸ hx)
  exact hk

/-! ## The whole instruction -/

theorem lower_lea4_eq_ok_iff {group : List Instruction} :
    let ins := Instruction.quaternary .lea4 dst base index scale
    t.lower ins = .ok group ↔ ∃ mode d k a sum, t.addressing = some mode ∧ dst = .reg d ∧
      scaleOf mode ins scale = .ok k ∧ baseOf ins base = .ok a ∧
      addIndex ins a k index = .ok sum ∧ mode.check sum = .ok () ∧
      group = [.binary .lea (.reg d) (.mem sum)] := by
  intro ins
  constructor
  · intro h
    obtain ⟨mode, d, k, a, sum, _, hparts⟩ := lower_quaternary h
    exact ⟨mode, d, k, a, sum, hparts⟩
  · rintro ⟨mode, d, k, a, sum, haddr, rfl, hk, ha, hsum, hcheck, rfl⟩
    refine lower_eq_ok_iff.mpr ⟨.loadAddress .lea d sum, ?_, rfl⟩
    have hplan : t.plan ins = planScaled mode ins .lea (.reg d) base index scale := by
      simp only [Target.plan, ins, haddr]
      rfl
    rw [hplan]
    exact bind_eq_ok_iff.mpr ⟨k, hk, bind_eq_ok_iff.mpr ⟨a, ha,
      bind_eq_ok_iff.mpr ⟨sum, hsum, bind_eq_ok_iff.mpr ⟨(), hcheck, rfl⟩⟩⟩⟩

theorem exists_lower_lea4_iff :
    (∃ group, t.lower (.quaternary .lea4 dst base index scale) = .ok group) ↔
      ∃ mode d s, t.addressing = some mode ∧ dst = .reg d ∧ scale = .imm s ∧
        mode.EncodesScaled base index s := by
  constructor
  · rintro ⟨group, h⟩
    obtain ⟨mode, d, k, a, sum, haddr, hd, hk, ha, hsum, hcheck, _⟩ := lower_lea4_eq_ok_iff.mp h
    obtain ⟨s, hs, hvalue, hmem⟩ := scaleOf_eq_ok_iff.mp hk
    have hks : (k.toNat : Int) = s.toInt := uint8?_eq_some_iff.mp hvalue
    have hindex := exists_addIndex_iff.mp ⟨sum, hsum⟩
    rw [disp_of_baseOf ha, hks] at hindex
    exact ⟨mode, d, s, haddr, hd, hs,
      { scale_mem := ⟨k, hmem, hks⟩
        base_fits := exists_baseOf_iff.mp ⟨a, ha⟩
        index_fits := hindex
        fields_le := (check_sum_iff hmem hks ha hsum).mp hcheck }⟩
  · rintro ⟨mode, d, s, haddr, rfl, rfl, h⟩
    let ins := Instruction.quaternary .lea4 (.reg d) base index (.imm s)
    obtain ⟨k, hmem, hks⟩ := h.scale_mem
    have hk : scaleOf mode ins (.imm s) = .ok k :=
      scaleOf_eq_ok_iff.mpr ⟨s, rfl, uint8?_eq_some_iff.mpr hks, hmem⟩
    obtain ⟨a, ha⟩ : ∃ a, baseOf ins base = .ok a := exists_baseOf_iff.mpr h.base_fits
    have hindex := h.index_fits
    rw [← disp_of_baseOf ha, ← hks] at hindex
    obtain ⟨sum, hsum⟩ : ∃ sum, addIndex ins a k index = .ok sum := exists_addIndex_iff.mpr hindex
    have hcheck := (check_sum_iff hmem hks ha hsum).mpr h.fields_le
    exact ⟨_, lower_lea4_eq_ok_iff.mpr
      ⟨mode, d, k, a, sum, haddr, rfl, hk, ha, hsum, hcheck, rfl⟩⟩

open Machine in
/-- Whatever the registers hold, the address of the sum is the value of the base
plus that of the index times the scale. -/
theorem address_sum (σ : State) (hk : scaleOf mode ins scale = .ok k)
    (ha : baseOf ins base = .ok a) (hsum : addIndex ins a k index = .ok sum) :
    ∃ x, σ.baseValue base = some x ∧ σ.address sum = x + σ.read index * σ.read scale := by
  obtain ⟨hnone, hbase⟩ := baseValue_baseOf σ ha
  refine ⟨σ.address a, hbase, ?_⟩
  rw [address_addIndex σ hnone hsum, read_scale σ hk]

/-- `base + index * scale` is lowered exactly if there are address computations, the
destination is a register, the scale a number and the sum an address that is
encoded. Then it is one address computation to the destination, whose value is that
of the sum in every state. If the index is a number, neither its product with the
scale nor the displacement added to that exceeds a word. -/
theorem lower_scaled (t : Target) (dst base index scale : Operand) :
    let ins := Instruction.quaternary .lea4 dst base index scale
    ((∃ group, t.lower ins = .ok group) ↔
      ∃ mode d s, t.addressing = some mode ∧ dst = .reg d ∧ scale = .imm s ∧
        mode.EncodesScaled base index s) ∧
    ∀ group, t.lower ins = .ok group →
      (∃ sum, group = [.binary .lea dst (.mem sum)] ∧ ∀ σ : Machine.State,
        ∃ x, σ.baseValue base = some x ∧ σ.address sum = x + σ.read index * σ.read scale) ∧
      ∀ k s, index = .imm k → scale = .imm s →
        (k * s).toInt = k.toInt * s.toInt ∧
          (k * s + Int64.ofInt base.disp).toInt = k.toInt * s.toInt + base.disp := by
  intro ins
  refine ⟨exists_lower_lea4_iff, ?_⟩
  intro group h
  constructor
  · obtain ⟨mode, d, k, a, sum, _, rfl, hk, ha, hsum, _, rfl⟩ := lower_lea4_eq_ok_iff.mp h
    exact ⟨sum, rfl, fun σ => address_sum σ hk ha hsum⟩
  · rintro k s rfl rfl
    obtain ⟨_, _, s', _, _, hs, hscaled⟩ := exists_lower_lea4_iff.mp ⟨group, h⟩
    cases hs
    rcases hscaled.index_fits with ⟨r, hr⟩ | ⟨k', hk', hdisp⟩
    · exact nomatch hr
    · cases hk'
      exact toInt_mul_add hscaled.base_fits.isDisp hdisp

/-- Here the product of index and scale is no displacement, but together with the
displacement of the base it is the largest there is. -/
theorem lower_scaled_largest_displacement :
    let base : Operand := .mem ⟨some ⟨1⟩, none, -1⟩
    let index : Operand := .imm 0x20000000
    let sum : Address := ⟨some ⟨1⟩, none, 0x7fffffff⟩
    let group : List Instruction := [.binary .lea (.reg ⟨0⟩) (.mem sum)]
    let ins := Instruction.quaternary .lea4 (.reg ⟨0⟩) base index (.imm 4)
    amd64.lower ins = .ok group ∧ AddressingMode.full.EncodesScaled base index 4 ∧
      ∀ σ : Machine.State,
        ∃ x, σ.baseValue base = some x ∧ σ.address sum = x + σ.read index * σ.read (.imm 4) := by
  intro base index sum group ins
  have hlow : amd64.lower ins = .ok group := rfl
  obtain ⟨hiff, hsound⟩ := lower_scaled amd64 (.reg ⟨0⟩) base index (.imm 4)
  obtain ⟨mode, d, s, haddr, _, hs, hscaled⟩ := hiff.mp ⟨group, hlow⟩
  cases haddr
  cases hs
  obtain ⟨⟨sum', hgroup, hvalue⟩, _⟩ := hsound group hlow
  have hsum : sum' = sum := by simpa [group] using hgroup.symm
  exact ⟨hlow, hscaled, hsum ▸ hvalue⟩

end Target

end TwoAddress
