/-
# `Proofs.Lowering.Acceptance` — which blocks are lowered, and to what

A block is lowered by a scan from its end and a tracker that runs over the
groups as they come out. `lowerBlock_eq_ok_iff` replaces both by a condition on
the block: it fits, every instruction can be lowered on its own, and every
carry that is read is supplied (`Supplied`). What comes out is then the groups
one after the other, and nothing else.
-/
import Mathlib.Data.Nat.Find
import TwoAddress.Proofs.Lowering.Items

namespace TwoAddress

namespace Carry

/-- The carry of family `f` that the instruction at place `i` reads is there: the
nearest link before leaves one of that family, every instruction of every group
in between leaves it alone, and the reading itself takes one instruction. -/
def Supplied (block : List Instruction) (groups : List (List Instruction)) (i : Nat)
    (f : Family) : Prop :=
  (∃ j l, Nearest block i j l ∧ l.family = f ∧
    ∀ k, j < k → k < i → ∀ group, groups[k]? = some group → ∀ g ∈ group, g.Inert) ∧
  ∃ w, groups[i]? = some [w]

def AllSupplied (block : List Instruction) (groups : List (List Instruction)) : Prop :=
  ∀ i l, linkAt block i = some l → l.role = .consume → Supplied block groups i l.family

variable {t : Target} {block : List Instruction} {groups : List (List Instruction)} {i : Nat}

theorem exists_first_fault {e : Error} (h : FaultAt t block i e) :
    ∃ j e', FaultAt t block j e' ∧ ∀ k < j, ∀ e'', ¬ FaultAt t block k e'' := by
  classical
  have hex : ∃ j, ∃ e', FaultAt t block j e' := ⟨i, e, h⟩
  obtain ⟨e', he'⟩ := Nat.find_spec hex
  exact ⟨Nat.find hex, e', he', fun k hk e'' hf => Nat.find_min hex hk ⟨e'', hf⟩⟩

theorem groupAt_of_map (h : block.map t.lower = groups.map .ok) (i : Nat) :
    groupAt t block i = groups[i]?.map .ok := by
  rw [groupAt, ← List.getElem?_map, h, List.getElem?_map]

theorem groupAt_eq_ok_iff (h : block.map t.lower = groups.map .ok) {group : List Instruction} :
    groupAt t block i = some (.ok group) ↔ groups[i]? = some group := by
  rw [groupAt_of_map h]
  constructor
  · intro hg
    obtain ⟨group', hg', he⟩ := Option.map_eq_some_iff.mp hg
    cases he
    exact hg'
  · intro hg
    rw [hg]
    rfl

theorem exists_lower {ins : Instruction} (h : block.map t.lower = groups.map .ok)
    (hins : block[i]? = some ins) :
    ∃ group, groups[i]? = some group ∧ t.lower ins = .ok group := by
  have hat := (groupAt_of_getElem? hins).symm.trans (groupAt_of_map h i)
  obtain ⟨group, hgroup, hok⟩ := Option.map_eq_some_iff.mp hat.symm
  exact ⟨group, hgroup, hok.symm⟩

theorem exists_origin {group : List Instruction} (h : block.map t.lower = groups.map .ok)
    (hgroup : groups[i]? = some group) :
    ∃ ins, block[i]? = some ins ∧ t.lower ins = .ok group :=
  Option.map_eq_some_iff.mp ((groupAt_eq_ok_iff h).mpr hgroup)

theorem exists_group_of_link {l : Link} (h : block.map t.lower = groups.map .ok)
    (hl : linkAt block i = some l) :
    ∃ group w, groupAt t block i = some (.ok group) ∧ LinkGroup l group w := by
  obtain ⟨ins, hins, hof⟩ := linkAt_eq_some_iff.mp hl
  obtain ⟨group, hgroup, hlow⟩ := exists_lower h hins
  obtain ⟨w, hlink⟩ := lower_link hof hlow
  exact ⟨group, w, (groupAt_eq_ok_iff h).mpr hgroup, hlink⟩

theorem leftBefore_of_nearest {j : Nat} {l : Link} (h : block.map t.lower = groups.map .ok)
    (hn : Nearest block i j l) :
    ∃ p, LeftBefore t block i p ∧ p.producer = j ∧ p.family = l.family := by
  obtain ⟨group, w, hg, hgroup⟩ := exists_group_of_link h hn.link
  exact ⟨⟨j, l.family, w⟩, ⟨l, group, hn, rfl, hg, hgroup.workerIn⟩, rfl, rfl⟩

/-- Without faults every carry that is read is supplied. -/
theorem supplied_of_clean (h : block.map t.lower = groups.map .ok)
    (hclean : ∀ k e, ¬ FaultAt t block k e) : AllSupplied block groups := by
  intro i l hl hrole
  obtain ⟨group, w, hg, hgroup⟩ := exists_group_of_link h hl
  rcases nearest_or_none block i with ⟨j, l', hn⟩ | hnone
  · obtain ⟨p, hleft, hprod, hfam⟩ := leftBefore_of_nearest h hn
    have hsingle : group = [w] := by
      match group, hgroup with
      | [g], hgroup => cases hgroup; rfl
      | m :: g :: rest, _ =>
          exact absurd (.prepared hl hrole hleft hg (List.cons_ne_nil g rest)) (hclean i _)
    subst hsingle
    refine ⟨⟨j, l', hn, ?_, ?_⟩, w, (groupAt_eq_ok_iff h).mp hg⟩
    · refine Classical.byContradiction ?_
      intro hne
      exact hclean i _ (.wrongFamily hl hrole hleft hg (hfam.symm ▸ hne))
    · intro k hjk hki group' hg' g hmem
      refine Classical.byContradiction ?_
      intro hni
      -- place `k` lies between two links, so what it clobbers is awaited
      have hk : linkAt block k = none := hn.between k hjk hki
      have hnk : Nearest block k j l' :=
        ⟨hjk, hn.link, fun m hjm hmk => hn.between m hjm (Nat.lt_trans hmk hki)⟩
      have ha : Awaited block (k + 1) :=
        ⟨i, l, hki, hl, hrole, fun m hkm hmi => hn.between m (Nat.lt_trans hjk hkm) hmi⟩
      obtain ⟨p', hleft', _, _⟩ := leftBefore_of_nearest h hnk
      cases hfind : group'.find? (fun x => !decide x.Inert) with
      | none => exact hni (by simpa using List.find?_eq_none.mp hfind g hmem)
      | some g' =>
          exact hclean k _ (.clobbered hk ha hleft' ((groupAt_eq_ok_iff h).mpr hg') hfind)
  · exact absurd (.noProducer hl hrole hnone hg hgroup.workerIn) (hclean i _)

/-- Where every carry that is read is supplied, nothing between a link and the
one that reads its carry destroys it. -/
theorem inert_of_awaited (hs : AllSupplied block groups) {j : Nat} {l : Link}
    (hn : Nearest block i j l) (hi : linkAt block i = none) (ha : Awaited block i)
    {group : List Instruction} (hg : groups[i]? = some group) :
    ∀ g ∈ group, g.Inert := by
  obtain ⟨n, l', hin, hl', hrole, hbetween⟩ := ha
  have hlt : i < n := by
    refine Nat.lt_of_le_of_ne hin ?_
    rintro rfl
    exact nomatch hi.symm.trans hl'
  obtain ⟨⟨j', _, hn', _, hinert⟩, _⟩ := hs n l' hl' hrole
  -- the nearest link before place `i` is the nearest before the one that reads
  obtain ⟨rfl, _⟩ := hn'.unique (hn.later hin hbetween)
  exact hinert i hn.before hlt group hg

/-- Where every carry that is read is supplied, there are no faults. -/
theorem clean_of_supplied (h : block.map t.lower = groups.map .ok)
    (hs : AllSupplied block groups) (e : Error) : ¬ FaultAt t block i e := by
  intro hf
  cases hf with
  | refused hg =>
      obtain ⟨_, _, he⟩ := Option.map_eq_some_iff.mp ((groupAt_of_map h i).symm.trans hg)
      exact nomatch he
  | noProducer hl hrole hnone _ _ =>
      obtain ⟨⟨j, l', hn, _⟩, _⟩ := hs i _ hl hrole
      exact nomatch hn.link.symm.trans (hnone j hn.before)
  | wrongFamily hl hrole hleft _ hne =>
      obtain ⟨⟨j, l', hn, hfam, _⟩, _⟩ := hs i _ hl hrole
      obtain ⟨l'', _, hn', hfam', _⟩ := hleft
      obtain ⟨_, rfl⟩ := hn.unique hn'
      exact hne (hfam'.trans hfam)
  | prepared hl hrole _ hg hrest =>
      obtain ⟨_, w, hw⟩ := hs i _ hl hrole
      have hg' := (groupAt_eq_ok_iff h).mp hg
      rw [hw, Option.some.injEq, List.cons.injEq] at hg'
      exact hrest hg'.2.symm
  | clobbered hk ha hleft hg hfind =>
      obtain ⟨l, _, hn, _⟩ := hleft
      have hinert := inert_of_awaited hs hn hk ((awaited_of_none hk).mpr ha)
        ((groupAt_eq_ok_iff h).mp hg) _ (List.mem_of_find?_eq_some hfind)
      simpa [hinert] using List.find?_some hfind

end Carry

namespace Target

open Carry

variable {t : Target} {block : List Instruction}

theorem lowerBlock_of_le (h : block.length ≤ t.maxBlockLen.toNat) :
    t.lowerBlock block =
      (t.lowerFrom 0 .start (block.zip (demand block))).outcome.map LoweredBlock.mk := by
  have hcheck : t.checkLength block.length = .ok () := by
    simp [Descriptor.checkLength, Descriptor.admits, h]
  simp only [lowerBlock, lowerBlockTraced, lowerWhole, Traced.outcome_onFailure,
    Traced.outcome_bind, Traced.outcome_ofExcept, Traced.outcome_note, hcheck]
  show (t.lowerFrom 0 .start _).outcome >>= _ = _
  cases (t.lowerFrom 0 .start (block.zip (demand block))).outcome <;> rfl

theorem lowerBlock_of_lt (h : t.maxBlockLen.toNat < block.length) :
    t.lowerBlock block = .error (.blockLength block.length t.maxBlockLen.toNat) := by
  have hcheck : t.checkLength block.length =
      .error (.blockLength block.length t.maxBlockLen.toNat) := by
    simp [Descriptor.checkLength, Descriptor.admits, h]
  simp only [lowerBlock, lowerBlockTraced, lowerWhole, Traced.outcome_onFailure,
    Traced.outcome_bind, Traced.outcome_ofExcept, hcheck]
  rfl

theorem lowerBlock_of_fault {i : Nat} {e : Error} (h : block.length ≤ t.maxBlockLen.toNat)
    (hf : FaultAt t block i e) (hfirst : ∀ k < i, ∀ e', ¬ FaultAt t block k e') :
    t.lowerBlock block = .error e := by
  have hrun := lowerFrom_fault (tracks_start t block) (Nat.zero_le i)
    (fun k _ => hfirst k) hf
  rw [List.drop_zero] at hrun
  rw [lowerBlock_of_le h, hrun]
  rfl

theorem lowerBlock_of_clean (h : block.length ≤ t.maxBlockLen.toNat)
    (hclean : ∀ i e, ¬ FaultAt t block i e) :
    ∃ groups : List (List Instruction), block.map t.lower = groups.map .ok ∧
      t.lowerBlock block = .ok ⟨(groups.mapIdx Lowered.ofGroup).flatten⟩ := by
  obtain ⟨groups, hgroups, hrun⟩ :=
    lowerFrom_sound (tracks_start t block) fun k _ => hclean k
  rw [List.drop_zero] at hgroups hrun
  refine ⟨groups, hgroups, ?_⟩
  rw [lowerBlock_of_le h, hrun, ← items_eq_itemsFrom]
  rfl

theorem map_ok_injective {ε α : Type} {xs ys : List α}
    (h : xs.map (Except.ok (ε := ε)) = ys.map .ok) : xs = ys :=
  List.map_inj_right (fun _ _ e => Except.ok.inj e) |>.mp h

/-- A block that is lowered fits, has no faults, and has become the groups of
its instructions. -/
theorem clean_of_lowerBlock {out : LoweredBlock} (hout : t.lowerBlock block = .ok out) :
    block.length ≤ t.maxBlockLen.toNat ∧ (∀ i e, ¬ FaultAt t block i e) ∧
      ∃ groups : List (List Instruction), block.map t.lower = groups.map .ok ∧
        out = ⟨(groups.mapIdx Lowered.ofGroup).flatten⟩ := by
  have hfits : block.length ≤ t.maxBlockLen.toNat := by
    refine Nat.le_of_not_lt ?_
    intro hlt
    exact nomatch hout.symm.trans (lowerBlock_of_lt hlt)
  have hclean : ∀ i e, ¬ FaultAt t block i e := by
    intro i e hf
    obtain ⟨j, e', hf', hfirst⟩ := exists_first_fault hf
    exact nomatch hout.symm.trans (lowerBlock_of_fault hfits hf' hfirst)
  obtain ⟨groups, hgroups, hok⟩ := lowerBlock_of_clean hfits hclean
  exact ⟨hfits, hclean, groups, hgroups, Except.ok.inj (hout.symm.trans hok)⟩

theorem lowerBlock_of_supplied {groups : List (List Instruction)}
    (h : block.length ≤ t.maxBlockLen.toNat) (hg : block.map t.lower = groups.map .ok)
    (hs : AllSupplied block groups) :
    t.lowerBlock block = .ok ⟨(groups.mapIdx Lowered.ofGroup).flatten⟩ := by
  obtain ⟨groups', hg', hok⟩ := lowerBlock_of_clean h fun i e => clean_of_supplied hg hs e
  rw [map_ok_injective (hg.symm.trans hg')]
  exact hok

/-- A block is lowered exactly if it fits, every instruction can be lowered on
its own, and every carry that is read is supplied. The lowered code is the
groups of the instructions in order, and each item knows its place in the input
and whether it leaves the carry alone. -/
theorem lowerBlock_eq_ok_iff (t : Target) (block : List Instruction) (out : LoweredBlock) :
    t.lowerBlock block = .ok out ↔
      block.length ≤ t.maxBlockLen.toNat ∧
      ∃ groups : List (List Instruction), block.map t.lower = groups.map .ok ∧
        (∀ i l, linkAt block i = some l → l.role = .consume →
          Supplied block groups i l.family) ∧
        out = ⟨(groups.mapIdx fun origin group =>
          group.map fun g => ⟨g, decide g.Inert, origin⟩).flatten⟩ := by
  constructor
  · intro hout
    obtain ⟨hfits, hclean, groups, hgroups, rfl⟩ := clean_of_lowerBlock hout
    exact ⟨hfits, groups, hgroups, supplied_of_clean hgroups hclean, rfl⟩
  · rintro ⟨hfits, groups, hgroups, hs, rfl⟩
    obtain ⟨groups', hgroups', hok⟩ :=
      lowerBlock_of_clean hfits fun i e => clean_of_supplied hgroups hs e
    rw [map_ok_injective (hgroups.symm.trans hgroups')]
    exact hok

end Target

end TwoAddress
