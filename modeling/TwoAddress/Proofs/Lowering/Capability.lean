/-
# `Proofs.Lowering.Capability` — lowering for a target that can do more

One target is within another if the other can do whatever it can
(`Target.Within`). What lowering gains from the richer target is one of two
things: a sum becomes an address computation, or memory operands are operated on
directly rather than by way of the scratch register (`Plan.Gains`). Either way
the group gets no longer, and if nothing in it touched the carry, nothing does
afterwards (`NoWorse`). So the carry of a chain is never lost by having more to
choose from, and a block that is lowered for a target is lowered for every richer
one (`lowerBlock_within`).
-/
import TwoAddress.Proofs.Lowering.Acceptance
import TwoAddress.Proofs.Lowering.Native

namespace TwoAddress

/-- The plan that a richer target may allow in place of another. -/
inductive Plan.Gains : Plan → Plan → Prop
  | same (plan : Plan) : Gains plan plan
  | fused (plan : Plan) (d : Reg) (sum : Address) : Gains plan (.fuse d sum)
  | direct (why : ScratchReason) (op : Opcode .binary) (dst a b : Operand) :
      Gains (.viaScratch why op dst a b) (.moveOperate op dst a b)

/-! ## The order of targets -/

/-- Whatever address the one mode encodes, the other encodes as well. -/
structure AddressingMode.Within (mode mode' : AddressingMode) : Prop where
  scales : mode.scales ⊆ mode'.scales
  maxFields : mode.maxFields ≤ mode'.maxFields

theorem AddressingMode.Within.encodes {mode mode' : AddressingMode} (h : mode.Within mode')
    {a : Address} (ha : mode.encodes a = true) : mode'.encodes a = true := by
  obtain ⟨hscale, hfields⟩ := encodes_iff.mp ha
  refine encodes_iff.mpr ⟨?_, Nat.le_trans hfields (UInt8.le_iff_toNat_le.mp h.maxFields)⟩
  intro x hx
  exact h.scales (hscale x hx)

namespace Target

/-- Every form of instruction that the one target has, the other has too. -/
structure FormsWithin (t t' : Target) : Prop where
  addressing : ∀ mode, t.addressing = some mode →
    ∃ mode', t'.addressing = some mode' ∧ mode.Within mode'
  memoryToMemory : t.memoryToMemory = true → t'.memoryToMemory = true

/-- The other target can do whatever the one can. What they are called does not
matter. -/
structure Within (t t' : Target) : Prop extends FormsWithin t t' where
  leaFusion : t.leaFusion = true → t'.leaFusion = true
  scratch : ∀ s, t.scratch = some s → t'.scratch = some s
  maxBlockLen : t.maxBlockLen ≤ t'.maxBlockLen

theorem FormsWithin.refl (t : Target) : t.FormsWithin t :=
  ⟨fun mode h => ⟨mode, h, fun _ hs => hs, UInt8.le_refl _⟩, id⟩

variable {t t' : Target} {ins g : Instruction} {group group' : List Instruction}
  {op : Opcode .binary} {dst src a b : Operand} {plan plan' : Plan}

theorem FormsWithin.takes (h : t.FormsWithin t') (hg : t.Takes g) : t'.Takes g := by
  cases hg with
  | nullary hop => exact .nullary hop
  | unary hop hdst => exact .unary hop hdst
  | address haddr hfits =>
      obtain ⟨mode', haddr', hmode⟩ := h.addressing _ haddr
      exact .address haddr' (hmode.encodes hfits)
  | binary hop hdst hboth =>
      exact .binary hop hdst fun hd hs => h.memoryToMemory (hboth hd hs)

/-! ## One instruction -/

/-- The groups of one instruction for two targets: the second is no longer, and
it leaves the carry alone if the first does. -/
structure NoWorse (group group' : List Instruction) : Prop where
  length_le : group'.length ≤ group.length
  inert : (∀ g ∈ group, g.Inert) → ∀ g ∈ group', g.Inert

theorem NoWorse.refl (group : List Instruction) : NoWorse group group :=
  ⟨Nat.le_refl _, id⟩

theorem NoWorse.append {rest rest' : List Instruction} (h : NoWorse group group')
    (hrest : NoWorse rest rest') : NoWorse (group ++ rest) (group' ++ rest') := by
  constructor
  · rw [List.length_append, List.length_append]
    exact Nat.add_le_add h.length_le hrest.length_le
  · intro hall
    obtain ⟨hg, hr⟩ := List.forall_mem_append.mp hall
    exact List.forall_mem_append.mpr ⟨h.inert hg, hrest.inert hr⟩

theorem NoWorse.of_inert (hne : group ≠ []) (hg : g.Inert) : NoWorse group [g] :=
  ⟨List.length_pos_iff.mpr hne, fun _ => List.forall_mem_singleton.mpr hg⟩

theorem NoWorse.of_copy {d s : Operand} (hlen : group'.length ≤ group.length + 1) :
    NoWorse (.binary .mov d s :: group) group' :=
  ⟨hlen, fun hall => absurd (hall _ List.mem_cons_self) (Carry.not_inert_mov d s)⟩

theorem scratchFor_within (h : t.Within t') {s : Reg} (hs : t.scratchFor ins = .ok s) :
    t'.scratchFor ins = .ok s := by
  obtain ⟨hscratch, hu⟩ := scratchFor_eq_ok_iff.mp hs
  exact scratchFor_eq_ok_iff.mpr ⟨h.scratch s hscratch, hu⟩

theorem operation_within (h : t.Within t') (ho : t.operation ins op dst src = .ok group) :
    ∃ group', t'.operation ins op dst src = .ok group' ∧ NoWorse group group' := by
  rcases operation_eq_ok_iff.mp ho with ⟨hboth, rfl⟩ | ⟨_, hd, hs, s, hscratch, hu, rfl⟩
  · have hboth' := fun hd hs => h.memoryToMemory (hboth hd hs)
    exact ⟨_, operation_of_both hboth', .refl _⟩
  · cases hm : t'.memoryToMemory with
    | true => exact ⟨_, operation_of_both fun _ _ => hm, .of_copy (by simp)⟩
    | false =>
        refine ⟨_, operation_eq_ok_iff.mpr (.inr ⟨hm, hd, hs, s, ?_, hu, rfl⟩), .refl _⟩
        exact h.scratch s hscratch

theorem emit_within (h : t.Within t') (hp : plan.Gains plan')
    (he : t.emit ins plan = .ok group) :
    ∃ group', t'.emit ins plan' = .ok group' ∧ NoWorse group group' := by
  cases hp with
  | fused _ d sum => exact ⟨_, rfl, .of_inert (emit_ne_nil he) (.lea _ _)⟩
  -- the copy into the scratch register and the one out of it become one
  | direct why op dst a b =>
      obtain ⟨s, _, hgroup⟩ := bind_eq_ok_iff.mp he
      cases hgroup
      exact ⟨_, rfl, .of_copy (by simp)⟩
  | same =>
      cases plan with
      | operate => exact operation_within h he
      | reuse => exact operation_within h he
      | commute => exact operation_within h he
      | moveUnary op dst src =>
          obtain ⟨copy, hcopy, hgroup⟩ := bind_eq_ok_iff.mp he
          cases hgroup
          obtain ⟨copy', hcopy', hle⟩ := operation_within h hcopy
          exact ⟨_, bind_eq_ok_iff.mpr ⟨copy', hcopy', rfl⟩, hle.append (.refl _)⟩
      | negateAdd dst a =>
          obtain ⟨rest, hrest, hgroup⟩ := bind_eq_ok_iff.mp he
          cases hgroup
          obtain ⟨rest', hrest', hle⟩ := operation_within h hrest
          exact ⟨_, bind_eq_ok_iff.mpr ⟨rest', hrest', rfl⟩,
            (NoWorse.refl [.unary .neg dst]).append hle⟩
      | viaScratch why op dst a b =>
          obtain ⟨s, hs, hgroup⟩ := bind_eq_ok_iff.mp he
          cases hgroup
          exact ⟨_, bind_eq_ok_iff.mpr ⟨s, scratchFor_within h hs, rfl⟩, .refl _⟩
      | keep => exact ⟨_, he, .refl _⟩
      | unaryInPlace => exact ⟨_, he, .refl _⟩
      | fuse => exact ⟨_, he, .refl _⟩
      | commuteMove => exact ⟨_, he, .refl _⟩
      | moveOperate => exact ⟨_, he, .refl _⟩
      | loadAddress => exact ⟨_, he, .refl _⟩

theorem fusion?_within (h : t.Within t') {x : Reg × Address}
    (hf : t.fusion? op dst a b = some x) : t'.fusion? op dst a b = some x := by
  obtain ⟨hfusion, rfl, hsum, mode, haddr, hfits⟩ := fusion?_eq_some hf
  obtain ⟨mode', haddr', hmode⟩ := h.addressing mode haddr
  simp [fusion?, h.leaFusion hfusion, haddr', hsum, hmode.encodes hfits]

/-- The strategies differ only where the richer target can fuse, or can do
without the scratch register. -/
theorem strategy_within (h : t.Within t') (op : Opcode .binary) (dst a b : Operand) :
    (t.strategy op dst a b).Gains (t'.strategy op dst a b) := by
  by_cases same : dst = a
  · simp only [strategy, if_pos same]
    exact .same _
  · cases hf' : t'.fusion? op dst a b with
    | some x =>
        simp only [strategy, if_neg same, hf']
        exact .fused _ _ _
    | none =>
        have hf : t.fusion? op dst a b = none := by
          cases hf : t.fusion? op dst a b with
          | none => rfl
          | some x =>
              rw [fusion?_within h hf] at hf'
              cases hf'
        simp only [strategy, if_neg same, hf, hf']
        -- the tests up to the last one do not look at the target
        split
        case isTrue => exact .same _
        case isFalse =>
          split
          case isTrue => exact .same _
          case isFalse =>
            split
            case isTrue => exact .same _
            case isFalse =>
              split
              case isTrue =>
                split
                case isTrue => exact .same _
                case isFalse => exact .direct _ op dst a b
              case isFalse both =>
                split
                case isTrue both' =>
                  refine absurd ⟨?_, both'.2⟩ both
                  cases hm : t.memoryToMemory with
                  | false => rfl
                  | true => exact absurd (both'.1.symm.trans (h.memoryToMemory hm)) Bool.false_ne_true
                case isFalse => exact .same _

/-! ## Addresses -/

theorem check_within {mode mode' : AddressingMode} (h : mode.Within mode') {a : Address}
    (hc : mode.check a = .ok ()) : mode'.check a = .ok () :=
  AddressingMode.check_eq_ok_iff.mpr (h.encodes (AddressingMode.check_eq_ok_iff.mp hc))

theorem planScaled_within {mode mode' : AddressingMode} (h : mode.Within mode')
    {base index scale : Operand} (hp : planScaled mode ins op dst base index scale = .ok plan) :
    planScaled mode' ins op dst base index scale = .ok plan := by
  cases dst with
  | imm k => exact nomatch hp
  | mem m => exact nomatch hp
  | reg d =>
      obtain ⟨k, hk, hp⟩ := bind_eq_ok_iff.mp hp
      obtain ⟨a, ha, hp⟩ := bind_eq_ok_iff.mp hp
      obtain ⟨sum, hsum, hp⟩ := bind_eq_ok_iff.mp hp
      obtain ⟨_, hcheck, hp⟩ := bind_eq_ok_iff.mp hp
      obtain ⟨s, hs, hu, hmem⟩ := scaleOf_eq_ok_iff.mp hk
      have hk' : scaleOf mode' ins scale = .ok k :=
        scaleOf_eq_ok_iff.mpr ⟨s, hs, hu, h.scales hmem⟩
      exact bind_eq_ok_iff.mpr ⟨k, hk', bind_eq_ok_iff.mpr ⟨a, ha,
        bind_eq_ok_iff.mpr ⟨sum, hsum, bind_eq_ok_iff.mpr ⟨(), check_within h hcheck, hp⟩⟩⟩⟩

theorem planAddress_within (h : t.Within t') (hp : t.planAddress ins dst src = .ok plan) :
    t'.planAddress ins dst src = .ok plan := by
  obtain ⟨rfl, mode, d, a, haddr, rfl, rfl, hcheck⟩ := planAddress_eq_ok hp
  obtain ⟨mode', haddr', hmode⟩ := h.addressing mode haddr
  simp only [planAddress, haddr', check_within hmode hcheck]
  rfl

/-! ## Any instruction -/

theorem plan_within (h : t.Within t') (hp : t.plan ins = .ok plan) :
    ∃ plan', t'.plan ins = .ok plan' ∧ plan.Gains plan' := by
  cases ins with
  | nullary op => exact ⟨plan, hp, .same _⟩
  | unary op dst => exact ⟨plan, hp, .same _⟩
  | binary op dst src =>
      refine ⟨plan, ?_, .same _⟩
      simp only [Target.plan, planBinary] at hp ⊢
      split at hp
      case isTrue => cases hp
      case isFalse hdecl =>
        split at hp
        case isTrue => cases hp
        case isFalse himm =>
          rw [if_neg hdecl, if_neg himm]
          split at hp
          case isTrue hlea =>
            rw [if_pos hlea]
            exact planAddress_within h hp
          case isFalse hlea =>
            rw [if_neg hlea]
            exact hp
  | ternary op3 dst a b =>
      simp only [Target.plan] at hp ⊢
      split at hp
      case h_1 => cases hp
      case h_2 op hop =>
        split at hp
        case isTrue => cases hp
        case isFalse himm =>
          cases hp
          refine ⟨_, ?_, strategy_within h op dst a b⟩
          rw [if_neg himm]
  | quaternary op4 dst base index scale =>
      simp only [Target.plan] at hp ⊢
      split at hp
      case h_2 => cases hp
      case h_1 op mode hop haddr =>
        obtain ⟨mode', haddr', hmode⟩ := h.addressing mode haddr
        rw [hop, haddr']
        exact ⟨plan, planScaled_within hmode hp, .same _⟩

/-- What is lowered for a target is lowered for a richer one, and no worse. -/
theorem lower_within (h : t.Within t') (hlow : t.lower ins = .ok group) :
    ∃ group', t'.lower ins = .ok group' ∧ NoWorse group group' := by
  obtain ⟨plan, hp, he⟩ := lower_eq_ok_iff.mp hlow
  obtain ⟨plan', hp', hgains⟩ := plan_within h hp
  obtain ⟨group', he', hle⟩ := emit_within h hgains he
  exact ⟨group', lower_eq_ok_iff.mpr ⟨plan', hp', he'⟩, hle⟩

/-! ## Whole blocks -/

open Carry

variable {block : List Instruction} {groups groups' : List (List Instruction)} {i : Nat}

/-- Place by place, the groups for the second target are no worse. -/
def GroupsNoWorse (groups groups' : List (List Instruction)) : Prop :=
  ∀ (i : Nat) (group' : List Instruction), groups'[i]? = some group' →
    ∃ group, groups[i]? = some group ∧ NoWorse group group'

theorem exists_groups (h : ∀ ins ∈ block, ∃ group, t.lower ins = .ok group) :
    ∃ groups : List (List Instruction), block.map t.lower = groups.map .ok := by
  induction block with
  | nil => exact ⟨[], rfl⟩
  | cons ins rest ih =>
      obtain ⟨⟨group, hgroup⟩, hrest⟩ := List.forall_mem_cons.mp h
      obtain ⟨groups, hgroups⟩ := ih hrest
      exact ⟨group :: groups, by rw [List.map_cons, hgroup, hgroups, List.map_cons]⟩

theorem groups_within (h : t.Within t') (hg : block.map t.lower = groups.map .ok) :
    ∃ groups' : List (List Instruction), block.map t'.lower = groups'.map .ok ∧
      GroupsNoWorse groups groups' := by
  have hall : ∀ ins ∈ block, ∃ group', t'.lower ins = .ok group' := by
    intro ins hins
    obtain ⟨i, hi⟩ := List.mem_iff_getElem?.mp hins
    obtain ⟨group, _, hlow⟩ := exists_lower hg hi
    obtain ⟨group', hlow', _⟩ := lower_within h hlow
    exact ⟨group', hlow'⟩
  obtain ⟨groups', hg'⟩ := exists_groups hall
  refine ⟨groups', hg', ?_⟩
  intro i group' hgroup'
  obtain ⟨ins, hins, hlow'⟩ := exists_origin hg' hgroup'
  obtain ⟨group, hgroup, hlow⟩ := exists_lower hg hins
  obtain ⟨group'', hlow'', hle⟩ := lower_within h hlow
  obtain rfl := Except.ok.inj (hlow'.symm.trans hlow'')
  exact ⟨group, hgroup, hle⟩

theorem allSupplied_within (hg' : block.map t'.lower = groups'.map .ok)
    (hle : GroupsNoWorse groups groups') (hs : AllSupplied block groups) :
    AllSupplied block groups' := by
  intro i l hl hrole
  obtain ⟨⟨j, l', hn, hfam, hinert⟩, w, hw⟩ := hs i l hl hrole
  refine ⟨⟨j, l', hn, hfam, ?_⟩, ?_⟩
  · intro k hjk hki group' hk
    obtain ⟨group, hgroup, hno⟩ := hle k group' hk
    exact hno.inert (hinert k hjk hki group hgroup)
  · obtain ⟨group', w', hat, hgroup'⟩ := exists_group_of_link hg' hl
    have hk := (groupAt_eq_ok_iff hg').mp hat
    obtain ⟨group, hgroup, hno⟩ := hle i group' hk
    obtain rfl := Option.some.inj (hw.symm.trans hgroup)
    have hlen : group'.length ≤ 1 := hno.length_le
    -- a link has a worker, so a group of at most one instruction has just that
    cases hgroup' with
    | alone _ => exact ⟨_, hk⟩
    | afterCopy _ => exact absurd hlen (by simp)
    | betweenCopies _ _ => exact absurd hlen (by simp)

/-- A block that is lowered for a target is lowered for every target that can do
whatever that one can, and from no place of it come more instructions than
before. -/
theorem lowerBlock_within (t t' : Target) (h : t.Within t') (block : List Instruction)
    (out : LoweredBlock) (hout : t.lowerBlock block = .ok out) :
    ∃ out', t'.lowerBlock block = .ok out' ∧
      ∀ i, out'.origins.count i ≤ out.origins.count i := by
  obtain ⟨hfits, hclean, groups, hgroups, rfl⟩ := clean_of_lowerBlock hout
  have hs := supplied_of_clean hgroups hclean
  obtain ⟨groups', hgroups', hle⟩ := groups_within h hgroups
  have hfits' : block.length ≤ t'.maxBlockLen.toNat :=
    Nat.le_trans hfits (UInt64.le_iff_toNat_le.mp h.maxBlockLen)
  have hs' := allSupplied_within hgroups' hle hs
  refine ⟨_, lowerBlock_of_supplied hfits' hgroups' hs', ?_⟩
  intro i
  rw [count_origins, count_origins]
  cases hg' : groups'[i]? with
  | none => exact Nat.zero_le _
  | some group' =>
      obtain ⟨group, hg, hno⟩ := hle i group' hg'
      rw [hg]
      exact hno.length_le

/-- With address computation a sum takes one instruction in place of two, and
with forms of two memory operands a product in memory takes two in place of
three. -/
theorem lowerBlock_within_sum_and_product :
    let t : Target := { minimal with scratch := some ⟨15⟩, sound := by decide }
    let t' : Target :=
      { amd64 with scratch := some ⟨15⟩, memoryToMemory := true, sound := by decide }
    let cell (r : Reg) : Operand := .mem (.ofReg r)
    let block : List Instruction :=
      [.ternary .add3 (.reg ⟨2⟩) (.reg ⟨0⟩) (.reg ⟨1⟩),
        .ternary .mul3 (cell ⟨2⟩) (cell ⟨3⟩) (.reg ⟨4⟩)]
    let out : LoweredBlock :=
      ⟨[⟨.binary .mov (.reg ⟨2⟩) (.reg ⟨0⟩), false, 0⟩,
        ⟨.binary .add (.reg ⟨2⟩) (.reg ⟨1⟩), false, 0⟩,
        ⟨.binary .mov (.reg ⟨15⟩) (cell ⟨3⟩), false, 1⟩,
        ⟨.binary .mul (.reg ⟨15⟩) (.reg ⟨4⟩), false, 1⟩,
        ⟨.binary .mov (cell ⟨2⟩) (.reg ⟨15⟩), false, 1⟩]⟩
    t.Within t' ∧ t.lowerBlock block = .ok out ∧
      ∃ out', t'.lowerBlock block = .ok out' ∧
        ∀ i, out'.origins.count i ≤ out.origins.count i := by
  intro t t' cell block out
  have hwithin : t.Within t' :=
    { addressing := fun mode h => nomatch h
      memoryToMemory := fun h => nomatch h
      leaFusion := fun h => nomatch h
      scratch := fun s h => h
      maxBlockLen := by decide }
  have hout : t.lowerBlock block = .ok out := rfl
  exact ⟨hwithin, hout, lowerBlock_within t t' hwithin block out hout⟩

end Target

end TwoAddress
