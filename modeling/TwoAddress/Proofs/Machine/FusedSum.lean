/-
# `Proofs.Machine.FusedSum` — which sums are fused into an address

`dst := a + b` and `dst := a - b` become one address computation where the
target allows it. Whether it does is decided in several places: the strategy
looks at the destination and the first source, `fusion?` at the target,
`sumAddress?` at the kinds of the operands and the size of a number, and the
addressing mode at the fields of the result.

Here all of that is one condition on the instruction and the target. Its part
about the operands is `AddressingMode.EncodesSum`, with a constructor for each
way in which two operands add up to an address; `exists_sumAddress?_iff` says
that nothing else does. A difference has the negated number as its displacement,
so the two ends of the range of displacements change places: 2^31 can be
subtracted but not added, and -2^31 can be added but not subtracted. The negated
number is an exact integer, so the smallest word needs no case of its own.
-/
import TwoAddress.Proofs.Lowering.FixedPoint
import TwoAddress.Proofs.Lowering.Legal
import TwoAddress.Proofs.Machine.ScaledSum

namespace TwoAddress

theorem Opcode.ternaryToBinary?_sum {op3 : Opcode .ternary} {op : Opcode .binary}
    (h : op3.ternaryToBinary? = some op) :
    (op = .add ↔ op3 = .add3) ∧ (op = .sub ↔ op3 = .sub3) := by
  have table : ∀ x ∈ ternaryTable, (x.2 = .add ↔ x.1 = .add3) ∧ (x.2 = .sub ↔ x.1 = .sub3) := by
    decide
  exact table _ (mem_of_lookup h)

namespace AddressingMode

/-- What the two operands add up to, or their difference, is an address of the
mode. A number that is zero takes no field. -/
inductive EncodesSum (mode : AddressingMode) : Opcode .ternary → Operand → Operand → Prop
  | registers {x y : Reg} : 1 ∈ mode.scales → 2 ≤ mode.maxFields.toNat →
      EncodesSum mode .add3 (.reg x) (.reg y)
  | numberSecond {x : Reg} {k : Int64} : IsDisp k.toInt → (k = 0 ∨ 2 ≤ mode.maxFields.toNat) →
      EncodesSum mode .add3 (.reg x) (.imm k)
  | numberFirst {k : Int64} {x : Reg} : IsDisp k.toInt → (k = 0 ∨ 2 ≤ mode.maxFields.toNat) →
      EncodesSum mode .add3 (.imm k) (.reg x)
  | difference {x : Reg} {k : Int64} : IsDisp (-k.toInt) → (k = 0 ∨ 2 ≤ mode.maxFields.toNat) →
      EncodesSum mode .sub3 (.reg x) (.imm k)

variable {mode : AddressingMode} {op3 : Opcode .ternary} {op : Opcode .binary} {a b : Operand}
  {x y : Reg} {i : Int}

theorem encodes_withIndex :
    mode.encodes ((Address.ofReg x).withIndex y 1) = true ↔
      1 ∈ mode.scales ∧ 2 ≤ mode.maxFields.toNat := by
  rw [encodes_iff]
  refine and_congr_left' ?_
  simp [Address.withIndex]

theorem encodes_withDisp (hone : 1 ≤ mode.maxFields.toNat) {d : Int32} :
    mode.encodes ((Address.ofReg x).withDisp d) = true ↔
      d.toInt = 0 ∨ 2 ≤ mode.maxFields.toNat := by
  have hindex : ((Address.ofReg x).withDisp d).index = none := rfl
  have hfields : ((Address.ofReg x).withDisp d).fields = 1 + if d.toInt = 0 then 0 else 1 :=
    Target.fields_eq _
  rw [encodes_iff, hindex, hfields]
  simp only [Option.mem_def, reduceCtorEq, false_implies, implies_true, true_and]
  split
  case isTrue hzero => exact iff_of_true hone (.inl hzero)
  case isFalse hne => exact (or_iff_right hne).symm

theorem exists_withDisp_iff (hone : 1 ≤ mode.maxFields.toNat) :
    (∃ sum, (int32? i).map (Address.ofReg x).withDisp = some sum ∧ mode.encodes sum = true) ↔
      IsDisp i ∧ (i = 0 ∨ 2 ≤ mode.maxFields.toNat) := by
  constructor
  · rintro ⟨sum, hsum, hfits⟩
    obtain ⟨d, hd, rfl⟩ := Option.map_eq_some_iff.mp hsum
    rw [encodes_withDisp hone, int32?_eq_some_iff.mp hd] at hfits
    exact ⟨exists_int32?_iff.mp ⟨d, hd⟩, hfits⟩
  · rintro ⟨hi, hfits⟩
    obtain ⟨d, hd⟩ := exists_int32?_iff.mpr hi
    rw [← int32?_eq_some_iff.mp hd] at hfits
    exact ⟨_, Option.map_eq_some_iff.mpr ⟨d, hd, rfl⟩, (encodes_withDisp hone).mpr hfits⟩

theorem toInt_eq_zero_iff {k : Int64} : k.toInt = 0 ↔ k = 0 := Int64.toInt_inj (y := 0)

/-- Two operands have a sum that is an address of the mode exactly in the ways
that `EncodesSum` lists. -/
theorem exists_sumAddress?_iff (hone : 1 ≤ mode.maxFields.toNat)
    (hop : op3.ternaryToBinary? = some op) :
    (∃ sum, sumAddress? op a b = some sum ∧ mode.encodes sum = true) ↔
      mode.EncodesSum op3 a b := by
  obtain ⟨hadd, hsub⟩ := Opcode.ternaryToBinary?_sum hop
  constructor
  · rintro ⟨sum, hsum, hfits⟩
    unfold sumAddress? at hsum
    split at hsum
    case h_1 x y =>
      split at hsum
      case isTrue h =>
        cases hsum
        cases hadd.mp h
        obtain ⟨hscale, hfields⟩ := encodes_withIndex.mp hfits
        exact .registers hscale hfields
      case isFalse => exact nomatch hsum
    case h_2 x k =>
      split at hsum
      case isTrue h =>
        cases hadd.mp h
        obtain ⟨hk, hfields⟩ := (exists_withDisp_iff hone).mp ⟨sum, hsum, hfits⟩
        exact .numberSecond hk (hfields.imp_left toInt_eq_zero_iff.mp)
      case isFalse =>
        split at hsum
        case isTrue h =>
          cases hsub.mp h
          obtain ⟨hk, hfields⟩ := (exists_withDisp_iff hone).mp ⟨sum, hsum, hfits⟩
          have hzero : -k.toInt = 0 → k = 0 := fun h => toInt_eq_zero_iff.mp (Int.neg_eq_zero.mp h)
          exact .difference hk (hfields.imp_left hzero)
        case isFalse => exact nomatch hsum
    case h_3 k x =>
      split at hsum
      case isTrue h =>
        cases hadd.mp h
        obtain ⟨hk, hfields⟩ := (exists_withDisp_iff hone).mp ⟨sum, hsum, hfits⟩
        exact .numberFirst hk (hfields.imp_left toInt_eq_zero_iff.mp)
      case isFalse => exact nomatch hsum
    case h_4 => exact nomatch hsum
  · intro h
    cases h with
    | registers hscale hfields =>
        obtain rfl := hadd.mpr rfl
        exact ⟨_, rfl, encodes_withIndex.mpr ⟨hscale, hfields⟩⟩
    | numberSecond hk hfields =>
        obtain rfl := hadd.mpr rfl
        exact (exists_withDisp_iff hone).mpr ⟨hk, hfields.imp_left toInt_eq_zero_iff.mpr⟩
    | numberFirst hk hfields =>
        obtain rfl := hadd.mpr rfl
        exact (exists_withDisp_iff hone).mpr ⟨hk, hfields.imp_left toInt_eq_zero_iff.mpr⟩
    -- the displacement of a difference is the negated number
    | difference hk hfields =>
        obtain rfl := hsub.mpr rfl
        exact (exists_withDisp_iff hone).mpr
          ⟨hk, hfields.imp_left fun h => Int.neg_eq_zero.mpr (toInt_eq_zero_iff.mpr h)⟩

end AddressingMode

namespace Target

variable {t : Target} {op3 : Opcode .ternary} {op : Opcode .binary} {dst a b d s : Operand}
  {group : List Instruction} {r : Reg} {sum : Address}

theorem exists_fusion?_iff (hop : op3.ternaryToBinary? = some op) :
    (∃ x, t.fusion? op dst a b = some x) ↔ t.leaFusion = true ∧ (∃ r, dst = .reg r) ∧
      ∃ mode, t.addressing = some mode ∧ mode.EncodesSum op3 a b := by
  constructor
  · rintro ⟨⟨r, sum⟩, hf⟩
    obtain ⟨hfusion, hr, hsum, mode, haddr, hfits⟩ := fusion?_eq_some hf
    have hencoded : mode.EncodesSum op3 a b :=
      (AddressingMode.exists_sumAddress?_iff (maxFields_of_sound haddr) hop).mp ⟨sum, hsum, hfits⟩
    exact ⟨hfusion, ⟨r, hr⟩, mode, haddr, hencoded⟩
  · rintro ⟨hfusion, ⟨r, rfl⟩, mode, haddr, hencoded⟩
    obtain ⟨sum, hsum, hfits⟩ :=
      (AddressingMode.exists_sumAddress?_iff (maxFields_of_sound haddr) hop).mpr hencoded
    exact ⟨(r, sum), by simp [fusion?, hfusion, haddr, hsum, hfits]⟩

/-! ## The whole instruction -/

theorem lower_of_fusion? (hop : op3.ternaryToBinary? = some op) (apart : dst ≠ a)
    (hf : t.fusion? op dst a b = some (r, sum)) :
    t.lower (.ternary op3 dst a b) = .ok [.binary .lea dst (.mem sum)] := by
  obtain ⟨_, rfl, _⟩ := fusion?_eq_some hf
  have hplan : t.plan (.ternary op3 (.reg r) a b) = .ok (.fuse r sum) := by
    simp [Target.plan, hop, strategy, apart, hf, Operand.isImm]
  exact lower_eq_ok_iff.mpr ⟨_, hplan, rfl⟩

/-- Nothing else than fusion puts an address computation in the place of an
instruction of three operands. -/
theorem fusion?_of_lea_mem (h : t.lower (.ternary op3 dst a b) = .ok group)
    (hg : .binary .lea d s ∈ group) :
    ∃ op r sum, op3.ternaryToBinary? = some op ∧ dst ≠ a ∧
      t.fusion? op dst a b = some (r, sum) ∧ group = [.binary .lea dst (.mem sum)] := by
  obtain ⟨op, plan, hop, _, hj, he⟩ := lower_ternary h
  obtain ⟨r, sum, rfl⟩ : ∃ r sum, plan = .fuse r sum := by
    rcases opcode_of_justified hj he hg with hlea | hlea | hlea | ⟨_, hplan⟩
    · exact absurd hlea.symm (Opcode.ternaryToBinary?_ordinary hop).1
    · exact nomatch hlea
    · exact nomatch hlea
    · exact hplan
  cases hj with
  | fuse apart hf =>
      obtain ⟨_, hr, _⟩ := fusion?_eq_some hf
      cases he
      exact ⟨op, r, sum, hop, apart, hf, by rw [hr]⟩

open Machine in
theorem address_of_fusion? (σ : State) (hop : op3.ternaryToBinary? = some op)
    (hf : t.fusion? op dst a b = some (r, sum)) :
    (op3 = .add3 → σ.address sum = σ.read a + σ.read b) ∧
      (op3 = .sub3 → σ.address sum = σ.read a - σ.read b) := by
  let m : Meaning := ⟨fun _ x => x, fun _ x _ => x⟩
  obtain ⟨hadd, hsub⟩ := Opcode.ternaryToBinary?_sum hop
  obtain ⟨_, hvalue⟩ := address_fusion m σ hf
  constructor
  · intro h
    rw [hvalue, hadd.mpr h, m.value_add]
  · intro h
    rw [hvalue, hsub.mpr h, m.value_sub]

/-- The code of an instruction with three operands has an address computation
exactly if the destination is a register other than the first source, the target
fuses sums, and the sum or difference is an address that it encodes. That address
computation is the whole code then, and it computes the sum or the difference in
every state. -/
theorem lower_fused (t : Target) (op3 : Opcode .ternary) (dst a b : Operand) :
    let ins := Instruction.ternary op3 dst a b
    ((∃ group, t.lower ins = .ok group ∧ ∃ d s, .binary .lea d s ∈ group) ↔
      dst ≠ a ∧ t.leaFusion = true ∧ (∃ r, dst = .reg r) ∧
        ∃ mode, t.addressing = some mode ∧ mode.EncodesSum op3 a b) ∧
    ∀ group d s, t.lower ins = .ok group → .binary .lea d s ∈ group →
      ∃ sum, group = [.binary .lea dst (.mem sum)] ∧ ∀ σ : Machine.State,
        (op3 = .add3 → σ.address sum = σ.read a + σ.read b) ∧
        (op3 = .sub3 → σ.address sum = σ.read a - σ.read b) := by
  intro ins
  refine ⟨⟨?_, ?_⟩, ?_⟩
  · rintro ⟨group, h, d, s, hg⟩
    obtain ⟨op, r, sum, hop, apart, hf, _⟩ := fusion?_of_lea_mem h hg
    exact ⟨apart, (exists_fusion?_iff hop).mp ⟨_, hf⟩⟩
  · rintro ⟨apart, hfused⟩
    obtain ⟨op, hop⟩ : ∃ op, op3.ternaryToBinary? = some op := by
      obtain ⟨_, _, _, _, hsum⟩ := hfused
      cases hsum <;> exact ⟨_, rfl⟩
    obtain ⟨⟨r, sum⟩, hf⟩ := (exists_fusion?_iff hop).mpr hfused
    exact ⟨_, lower_of_fusion? hop apart hf, _, _, List.mem_singleton.mpr rfl⟩
  · intro group d s h hg
    obtain ⟨op, r, sum, hop, _, hf, hgroup⟩ := fusion?_of_lea_mem h hg
    exact ⟨sum, hgroup, fun σ => address_of_fusion? σ hop hf⟩

/-- Subtracting 2^31 is fused, with the smallest displacement there is; subtracting
-2^31 is not, nor is subtracting the smallest word. -/
theorem lower_fused_limits :
    let ins := fun k => Instruction.ternary .sub3 (.reg ⟨0⟩) (.reg ⟨1⟩) (.imm k)
    let sum : Address := ⟨some ⟨1⟩, none, -0x80000000⟩
    amd64.lower (ins 0x80000000) = .ok [.binary .lea (.reg ⟨0⟩) (.mem sum)] ∧
      (∀ σ : Machine.State,
        σ.address sum = σ.read (.reg ⟨1⟩) - σ.read (.imm 0x80000000)) ∧
      ∀ k ∈ [-0x80000000, Int64.minValue], ∀ group, amd64.lower (ins k) = .ok group →
        ∀ d s, .binary .lea d s ∉ group := by
  intro ins sum
  have hlow : amd64.lower (ins 0x80000000) = .ok [.binary .lea (.reg ⟨0⟩) (.mem sum)] := rfl
  refine ⟨hlow, ?_, ?_⟩
  · intro σ
    obtain ⟨_, hvalue⟩ := lower_fused amd64 .sub3 (.reg ⟨0⟩) (.reg ⟨1⟩) (.imm 0x80000000)
    obtain ⟨sum', hgroup, hσ⟩ := hvalue _ _ _ hlow (List.mem_singleton.mpr rfl)
    have hsum : sum' = sum := by simpa using hgroup.symm
    exact hsum ▸ (hσ σ).2 rfl
  · intro k hk group h d s hg
    obtain ⟨hiff, _⟩ := lower_fused amd64 .sub3 (.reg ⟨0⟩) (.reg ⟨1⟩) (.imm k)
    obtain ⟨_, _, _, mode, _, hsum⟩ := hiff.mp ⟨group, h, d, s, hg⟩
    have hdisp : IsDisp (-k.toInt) := by
      cases hsum with
      | difference hdisp _ => exact hdisp
    have hlarge : ¬ -k.toInt < 2 ^ 31 := by
      simp only [List.mem_cons, List.not_mem_nil, or_false] at hk
      rcases hk with rfl | rfl
      · decide
      · decide
    exact hlarge hdisp.2

end Target

end TwoAddress
