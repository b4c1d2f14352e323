/-
# `Proofs.Lowering.Items` — the items of lowered code

Lowered code is the groups of the instructions one after the other, each item
with the place of its instruction. Here the items are found by that place: which
there are (`mem_items_iff`), how many come from one place (`count_origins`), and
what is left when the places are dropped (`instructions_of_groups`).
-/
import TwoAddress.Proofs.Carry.Fault

namespace TwoAddress

namespace Target

open Carry

variable {groups : List (List Instruction)} {i k : Nat}

theorem items_eq_itemsFrom (groups : List (List Instruction)) :
    (groups.mapIdx Lowered.ofGroup).flatten = itemsFrom 0 groups := by
  simp only [itemsFrom, Nat.zero_add]

theorem mem_items_iff {x : Lowered} :
    x ∈ (groups.mapIdx Lowered.ofGroup).flatten ↔
      ∃ group, groups[x.origin]? = some group ∧ x.instruction ∈ group ∧
        x.flagPreserving = decide x.instruction.Inert := by
  simp only [List.mem_flatten, List.mem_mapIdx]
  constructor
  · rintro ⟨_, ⟨i, hi, rfl⟩, hx⟩
    obtain ⟨g, hg, rfl⟩ := List.mem_map.mp hx
    exact ⟨groups[i], List.getElem?_eq_getElem hi, hg, rfl⟩
  · rintro ⟨group, hgroup, hg, hflag⟩
    obtain ⟨hi, rfl⟩ := List.getElem?_eq_some_iff.mp hgroup
    refine ⟨_, ⟨x.origin, hi, rfl⟩, List.mem_map.mpr ⟨x.instruction, hg, ?_⟩⟩
    rw [← hflag]

theorem origin_of_mem_ofGroup {group : List Instruction} {x : Lowered}
    (h : x ∈ Lowered.ofGroup k group) : x.origin = k := by
  obtain ⟨g, _, rfl⟩ := List.mem_map.mp h
  rfl

theorem le_origin_of_mem_itemsFrom {x : Lowered} (h : x ∈ itemsFrom k groups) :
    k ≤ x.origin := by
  induction groups generalizing k with
  | nil => exact nomatch h
  | cons group rest ih =>
      rw [itemsFrom_cons] at h
      rcases List.mem_append.mp h with h | h
      · exact Nat.le_of_eq (origin_of_mem_ofGroup h).symm
      · exact Nat.le_of_succ_le (ih h)

theorem origins_ofGroup (k : Nat) (group : List Instruction) :
    (Lowered.ofGroup k group).map (·.origin) = List.replicate group.length k := by
  simp [Lowered.ofGroup, Function.comp_def, List.map_const']

theorem count_origins_itemsFrom (k i : Nat) (groups : List (List Instruction)) :
    ((itemsFrom k groups).map (·.origin)).count (k + i) =
      (groups[i]?.map List.length).getD 0 := by
  induction groups generalizing k i with
  | nil => rfl
  | cons group rest ih =>
      rw [itemsFrom_cons, List.map_append, List.count_append, origins_ofGroup,
        List.count_replicate]
      cases i with
      | zero =>
          have hrest : ((itemsFrom (k + 1) rest).map (·.origin)).count k = 0 := by
            refine List.count_eq_zero.mpr ?_
            intro hk
            obtain ⟨x, hx, hxk⟩ := List.mem_map.mp hk
            have hle := le_origin_of_mem_itemsFrom hx
            omega
          simp [hrest]
      | succ i =>
          have hne : ¬ (k == k + (i + 1)) = true := by simp
          have hshift : k + (i + 1) = k + 1 + i := by omega
          rw [if_neg hne, Nat.zero_add, hshift]
          exact ih (k + 1) i

theorem count_origins (groups : List (List Instruction)) (i : Nat) :
    (LoweredBlock.mk (groups.mapIdx Lowered.ofGroup).flatten).origins.count i =
      (groups[i]?.map List.length).getD 0 := by
  have h := count_origins_itemsFrom 0 i groups
  rwa [Nat.zero_add, ← items_eq_itemsFrom] at h

theorem instructions_of_groups (groups : List (List Instruction)) :
    (LoweredBlock.mk (groups.mapIdx Lowered.ofGroup).flatten).instructions = groups.flatten := by
  have hgroup (i : Nat) (group : List Instruction) :
      (Lowered.ofGroup i group).map (·.instruction) = group := by
    rw [Lowered.ofGroup, List.map_map]
    exact List.map_id group
  have hgroups : (groups.mapIdx Lowered.ofGroup).map (List.map (·.instruction)) = groups := by
    refine List.ext_getElem? ?_
    intro i
    rw [List.getElem?_map, List.getElem?_mapIdx]
    cases groups[i]? with
    | none => rfl
    | some group => exact congrArg some (hgroup i group)
  rw [LoweredBlock.instructions, List.map_flatten, hgroups]

end Target

end TwoAddress
