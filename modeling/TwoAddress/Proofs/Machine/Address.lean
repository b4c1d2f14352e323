/-
# `Proofs.Machine.Address` — sums that are computed as addresses

Two kinds of sums become addresses: those of three-operand instructions that are
fused, and those of a base and a scaled index. Both are exact integers until the
very end, and `word` respects sums and products, so that what wraps in the
machine is the same number in the end.
-/
import Mathlib.Tactic.Ring
import TwoAddress.Proofs.Machine.Step

namespace TwoAddress

namespace Machine

/-! ## Sums as addresses -/

theorem word_add (i j : Int) : word (i + j) = word i + word j := BitVec.ofInt_add i j

theorem word_mul (i j : Int) : word (i * j) = word i * word j := BitVec.ofInt_mul i j

theorem word_neg (i : Int) : word (-i) = -word i := BitVec.ofInt_neg

namespace State

variable (s : State)

theorem address_ofReg_withIndex (x y : Reg) :
    s.address ((Address.ofReg x).withIndex y 1) = s.regs x + s.regs y := by
  show s.regs x + s.regs y * word 1 + word 0 = _
  have hone : word 1 = 1 := rfl
  have hzero : word 0 = 0 := rfl
  rw [hone, hzero, mul_one, add_zero]

theorem address_ofReg_withDisp (x : Reg) (d : Int32) :
    s.address ((Address.ofReg x).withDisp d) = s.regs x + word d.toInt := by
  show s.regs x + 0 + word d.toInt = _
  rw [add_zero]

theorem address_of_disp {x : Reg} {i : Int} {sum : Address}
    (h : (int32? i).map (Address.ofReg x).withDisp = some sum) :
    s.address sum = s.regs x + word i := by
  obtain ⟨d, hd, rfl⟩ := Option.map_eq_some_iff.mp h
  rw [address_ofReg_withDisp, int32?_eq_some_iff.mp hd]

end State

/-- The address of a sum is the value of the sum. -/
theorem address_sumAddress (m : Meaning) (s : State) {op : Opcode .binary} {a b : Operand}
    {sum : Address} (h : sumAddress? op a b = some sum) :
    s.address sum = m.value op (s.read a) (s.read b) false := by
  unfold sumAddress? at h
  split at h
  case h_1 x y =>
    split at h
    case isTrue hop =>
      subst hop
      cases h
      rw [s.address_ofReg_withIndex, m.value_add]
      rfl
    case isFalse => exact nomatch h
  case h_2 x k =>
    split at h
    case isTrue hop =>
      subst hop
      rw [s.address_of_disp h, m.value_add]
      rfl
    case isFalse =>
      split at h
      case isTrue hop =>
        subst hop
        rw [s.address_of_disp h, m.value_sub, word_neg, ← sub_eq_add_neg]
        rfl
      case isFalse => exact nomatch h
  case h_3 k x =>
    split at h
    case isTrue hop =>
      subst hop
      rw [s.address_of_disp h, m.value_add, add_comm]
      rfl
    case isFalse => exact nomatch h
  case h_4 => exact nomatch h

theorem address_fusion {t : Target} (m : Meaning) (s : State) {op : Opcode .binary}
    {dst a b : Operand} {d : Reg} {sum : Address} (h : t.fusion? op dst a b = some (d, sum)) :
    dst = .reg d ∧ s.address sum = m.value op (s.read a) (s.read b) false := by
  unfold Target.fusion? at h
  split at h
  case h_1 mode d' sum' _ _ hsum =>
    split at h
    case isTrue =>
      cases h
      exact ⟨rfl, address_sumAddress m s hsum⟩
    case isFalse => exact nomatch h
  case h_2 => exact nomatch h

/-! ## Scaled sums as addresses -/

section Scaled

variable (s : State) {mode : AddressingMode} {ins : Instruction} {base index scale : Operand}
  {a sum : Address} {k : UInt8}

theorem read_scale (h : Target.scaleOf mode ins scale = .ok k) : s.read scale = word k.toNat := by
  unfold Target.scaleOf at h
  split at h
  case h_1 i =>
    split at h
    case h_1 k' hk =>
      cases h
      obtain ⟨hk', _⟩ := Option.filter_eq_some_iff.mp hk
      rw [uint8?_eq_some_iff.mp hk']
      rfl
    case h_2 => exact nomatch h
  case h_2 => exact nomatch h

theorem toInt_of_dispOf {i : Int} {d : Int32} (h : Target.dispOf ins i = .ok d) :
    d.toInt = i := by
  unfold Target.dispOf at h
  split at h
  case h_1 hd =>
    cases h
    exact int32?_eq_some_iff.mp hd
  case h_2 => exact nomatch h

/-- The base of a scaled sum has no index, and its address is its value. -/
theorem baseValue_baseOf (h : Target.baseOf ins base = .ok a) :
    a.index = none ∧ s.baseValue base = some (s.address a) := by
  cases base with
  | reg r =>
      cases h
      refine ⟨rfl, congrArg some ?_⟩
      show s.regs r = s.regs r + 0 + word 0
      have hzero : word 0 = 0 := rfl
      rw [hzero, add_zero, add_zero]
  | mem b =>
      unfold Target.baseOf at h
      simp only at h
      split at h
      case isTrue hnone =>
        cases h
        exact ⟨Option.isNone_iff_eq_none.mp hnone, if_pos hnone⟩
      case isFalse => exact nomatch h
  | imm i =>
      obtain ⟨d, hd, ha⟩ := bind_eq_ok_iff.mp h
      cases ha
      refine ⟨rfl, congrArg some ?_⟩
      show word i.toInt = 0 + 0 + word d.toInt
      rw [toInt_of_dispOf hd, add_zero, zero_add]

theorem address_addIndex (hnone : a.index = none)
    (h : Target.addIndex ins a k index = .ok sum) :
    s.address sum = s.address a + s.read index * word k.toNat := by
  obtain ⟨base, _, disp⟩ := a
  cases hnone
  cases index with
  | mem b => exact nomatch h
  | reg r =>
      cases h
      show base.elim 0 s.regs + s.regs r * word k.toNat + word disp.toInt =
        base.elim 0 s.regs + 0 + word disp.toInt + s.regs r * word k.toNat
      ring
  | imm i =>
      obtain ⟨d, hd, hsum⟩ := bind_eq_ok_iff.mp h
      cases hsum
      show base.elim 0 s.regs + 0 + word d.toInt =
        base.elim 0 s.regs + 0 + word disp.toInt + word i.toInt * word k.toNat
      rw [toInt_of_dispOf hd, word_add, word_mul]
      ring

end Scaled

end Machine

end TwoAddress
