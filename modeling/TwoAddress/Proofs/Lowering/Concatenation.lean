/-
# `Proofs.Lowering.Concatenation` — lowering a block in two parts

Whether a carry is needed is found out from the end of a block, so a part put
behind a block could change what is needed anywhere in it. It does so only
through its first link: if that one does not read a carry, nothing that is
supplied in the one part has to do with the other (`allSupplied_append_iff`).
Then a block is lowered exactly if both parts are, and the code is that of the
parts, one after the other (`lowerBlock_append`).
-/
import TwoAddress.Proofs.Lowering.Acceptance

namespace TwoAddress

namespace Carry

variable {front back : List Instruction} {frontGroups backGroups : List (List Instruction)}
  {i j : Nat} {l : Link} {f : Family}

/-! ## Links by their places in the parts -/

theorem linkAt_append_left (hi : i < front.length) :
    linkAt (front ++ back) i = linkAt front i := by
  rw [linkAt, List.getElem?_append_left hi, linkAt]

theorem linkAt_append_right (front back : List Instruction) (i : Nat) :
    linkAt (front ++ back) (front.length + i) = linkAt back i := by
  rw [linkAt, List.getElem?_append_right (Nat.le_add_right _ i), Nat.add_sub_cancel_left, linkAt]

theorem nearest_append_left_iff (hi : i ≤ front.length) :
    Nearest (front ++ back) i j l ↔ Nearest front i j l := by
  constructor
  · rintro ⟨hj, hlink, hbetween⟩
    refine ⟨hj, (linkAt_append_left (by omega)).symm.trans hlink, ?_⟩
    intro k hjk hki
    exact (linkAt_append_left (by omega)).symm.trans (hbetween k hjk hki)
  · rintro ⟨hj, hlink, hbetween⟩
    refine ⟨hj, (linkAt_append_left (by omega)).trans hlink, ?_⟩
    intro k hjk hki
    exact (linkAt_append_left (by omega)).trans (hbetween k hjk hki)

theorem nearest_append_right_iff :
    Nearest (front ++ back) (front.length + i) (front.length + j) l ↔ Nearest back i j l := by
  constructor
  · rintro ⟨hj, hlink, hbetween⟩
    refine ⟨by omega, (linkAt_append_right front back j).symm.trans hlink, ?_⟩
    intro k hjk hki
    exact (linkAt_append_right front back k).symm.trans
      (hbetween (front.length + k) (by omega) (by omega))
  · rintro ⟨hj, hlink, hbetween⟩
    refine ⟨by omega, (linkAt_append_right front back j).trans hlink, ?_⟩
    intro k hjk hki
    obtain ⟨k', rfl⟩ := Nat.exists_eq_add_of_le (Nat.le_of_add_right_le (Nat.le_of_lt hjk))
    exact (linkAt_append_right front back k').trans (hbetween k' (by omega) (by omega))

/-! ## Carries that are supplied in the parts -/

theorem supplied_append_left_iff (hlen : frontGroups.length = front.length)
    (hi : i < front.length) :
    Supplied (front ++ back) (frontGroups ++ backGroups) i f ↔ Supplied front frontGroups i f := by
  have hgroup : ∀ k ≤ i, (frontGroups ++ backGroups)[k]? = frontGroups[k]? := by
    intro k hk
    exact List.getElem?_append_left (by omega)
  simp only [Supplied, nearest_append_left_iff (Nat.le_of_lt hi), hgroup i (Nat.le_refl i)]
  refine and_congr_left' ?_
  refine exists_congr fun j => exists_congr fun l => and_congr_right' (and_congr_right' ?_)
  constructor
  · intro h k hjk hki group hk
    exact h k hjk hki group ((hgroup k (Nat.le_of_lt hki)).trans hk)
  · intro h k hjk hki group hk
    exact h k hjk hki group ((hgroup k (Nat.le_of_lt hki)).symm.trans hk)

theorem getElem?_append_groups (hlen : frontGroups.length = front.length) (k : Nat) :
    (frontGroups ++ backGroups)[front.length + k]? = backGroups[k]? := by
  rw [← hlen, List.getElem?_append_right (Nat.le_add_right _ k), Nat.add_sub_cancel_left]

theorem Supplied.append_right (hlen : frontGroups.length = front.length)
    (h : Supplied back backGroups i f) :
    Supplied (front ++ back) (frontGroups ++ backGroups) (front.length + i) f := by
  obtain ⟨⟨j, l, hn, hfam, hinert⟩, w, hw⟩ := h
  refine ⟨⟨front.length + j, l, nearest_append_right_iff.mpr hn, hfam, ?_⟩, w, ?_⟩
  · intro k hjk hki group hk
    obtain ⟨k', rfl⟩ := Nat.exists_eq_add_of_le (Nat.le_of_add_right_le (Nat.le_of_lt hjk))
    rw [getElem?_append_groups hlen] at hk
    exact hinert k' (by omega) (by omega) group hk
  · rw [getElem?_append_groups hlen]
    exact hw

theorem Supplied.of_append_right (hlen : frontGroups.length = front.length)
    (hn : Nearest back i j l)
    (h : Supplied (front ++ back) (frontGroups ++ backGroups) (front.length + i) f) :
    Supplied back backGroups i f := by
  obtain ⟨⟨j', l', hn', hfam, hinert⟩, w, hw⟩ := h
  obtain ⟨rfl, rfl⟩ := hn'.unique (nearest_append_right_iff.mpr hn)
  refine ⟨⟨j, l', hn, hfam, ?_⟩, w, ?_⟩
  · intro k hjk hki group hk
    exact hinert (front.length + k) (by omega) (by omega) group
      ((getElem?_append_groups hlen k).trans hk)
  · exact (getElem?_append_groups hlen i).symm.trans hw

/-- Where the first link of the second part reads no carry, the carries of the whole
are supplied exactly if those of both parts are. -/
theorem allSupplied_append_iff (hlen : frontGroups.length = front.length)
    (hcut : ¬ Awaited back 0) :
    AllSupplied (front ++ back) (frontGroups ++ backGroups) ↔
      AllSupplied front frontGroups ∧ AllSupplied back backGroups := by
  constructor
  · intro h
    constructor
    · intro i l hl hrole
      have hi := linkAt_lt_length hl
      exact (supplied_append_left_iff hlen hi).mp
        (h i l ((linkAt_append_left hi).trans hl) hrole)
    · intro i l hl hrole
      have hs := h (front.length + i) l ((linkAt_append_right front back i).trans hl) hrole
      rcases nearest_or_none back i with ⟨j, l', hn⟩ | hnone
      · exact hs.of_append_right hlen hn
      -- Without a link before it in its part, it would be the first, which reads no carry.
      · exact absurd ⟨i, l, Nat.zero_le i, hl, hrole, fun k _ hk => hnone k hk⟩ hcut
  · rintro ⟨hfront, hback⟩ i l hl hrole
    rcases Nat.lt_or_ge i front.length with hi | hi
    · exact (supplied_append_left_iff hlen hi).mpr
        (hfront i l ((linkAt_append_left hi).symm.trans hl) hrole)
    · obtain ⟨i', rfl⟩ := Nat.exists_eq_add_of_le hi
      exact (hback i' l ((linkAt_append_right front back i').symm.trans hl) hrole).append_right hlen

end Carry

namespace Target

open Carry

variable {frontGroups backGroups : List (List Instruction)}

theorem ofGroup_shift (n k : Nat) (group : List Instruction) :
    Lowered.ofGroup (k + n) group =
      (Lowered.ofGroup k group).map fun x => { x with origin := n + x.origin } := by
  simp [Lowered.ofGroup, Nat.add_comm k]

/-- The items of the second part count their places from the end of the first. -/
theorem items_append (frontGroups backGroups : List (List Instruction)) :
    ((frontGroups ++ backGroups).mapIdx Lowered.ofGroup).flatten =
      (frontGroups.mapIdx Lowered.ofGroup).flatten ++
        (backGroups.mapIdx Lowered.ofGroup).flatten.map
          fun x => { x with origin := frontGroups.length + x.origin } := by
  have hback : backGroups.mapIdx (fun k => Lowered.ofGroup (k + frontGroups.length)) =
      (backGroups.mapIdx Lowered.ofGroup).map
        (List.map fun x => { x with origin := frontGroups.length + x.origin }) := by
    refine List.ext_getElem? ?_
    intro k
    rw [List.getElem?_map, List.getElem?_mapIdx, List.getElem?_mapIdx, Option.map_map]
    exact congrArg (Option.map · _) (funext (ofGroup_shift frontGroups.length k))
  rw [List.mapIdx_append, List.flatten_append, List.map_flatten, hback]

/-- Let the first link of `back`, if it has one, read no carry. Then the two blocks
put together are lowered exactly if each of them is, and the code is that of the
one followed by that of the other. -/
theorem lowerBlock_append (t : Target) (front back : List Instruction)
    (hfits : (front ++ back).length ≤ t.maxBlockLen.toNat)
    (hcut : ∀ i l, linkAt back i = some l → (∀ k < i, linkAt back k = none) → l.role ≠ .consume)
    (out : LoweredBlock) :
    t.lowerBlock (front ++ back) = .ok out ↔
      ∃ frontOut backOut, t.lowerBlock front = .ok frontOut ∧ t.lowerBlock back = .ok backOut ∧
        out = ⟨frontOut.items ++
          backOut.items.map fun x => { x with origin := front.length + x.origin }⟩ := by
  have hna : ¬ Awaited back 0 := by
    rintro ⟨i, l, _, hl, hrole, hnone⟩
    exact hcut i l hl (fun k hk => hnone k (Nat.zero_le k) hk) hrole
  have hfits' := hfits
  rw [List.length_append] at hfits'
  constructor
  · intro hout
    obtain ⟨_, hclean, groups, hgroups, rfl⟩ := clean_of_lowerBlock hout
    have hs := supplied_of_clean hgroups hclean
    rw [List.map_append] at hgroups
    obtain ⟨frontGroups, backGroups, rfl, hfront, hback⟩ := List.append_eq_map_iff.mp hgroups
    have hlen : frontGroups.length = front.length := by
      simpa using (congrArg List.length hfront)
    obtain ⟨hsfront, hsback⟩ := (allSupplied_append_iff hlen hna).mp hs
    refine ⟨_, _, lowerBlock_of_supplied (by omega) hfront.symm hsfront,
      lowerBlock_of_supplied (by omega) hback.symm hsback, ?_⟩
    rw [items_append, hlen]
  · rintro ⟨frontOut, backOut, hfront, hback, rfl⟩
    obtain ⟨_, hcfront, frontGroups, hgfront, rfl⟩ := clean_of_lowerBlock hfront
    obtain ⟨_, hcback, backGroups, hgback, rfl⟩ := clean_of_lowerBlock hback
    have hlen : frontGroups.length = front.length := by
      simpa using (congrArg List.length hgfront).symm
    have hs := (allSupplied_append_iff hlen hna).mpr
      ⟨supplied_of_clean hgfront hcfront, supplied_of_clean hgback hcback⟩
    have hgroups : (front ++ back).map t.lower = (frontGroups ++ backGroups).map .ok := by
      rw [List.map_append, List.map_append, hgfront, hgback]
    rw [lowerBlock_of_supplied hfits hgroups hs, items_append, hlen]

/-- Two chains one after the other, with a sum before the second: the first ends
where the second part begins. -/
theorem lowerBlock_append_two_chains :
    let front : List Instruction :=
      [.binary .add (.reg ⟨0⟩) (.reg ⟨3⟩), .ternary .adc3 (.reg ⟨1⟩) (.reg ⟨1⟩) (.reg ⟨4⟩)]
    let back : List Instruction :=
      [.ternary .sub3 (.reg ⟨6⟩) (.reg ⟨7⟩) (.reg ⟨8⟩), .binary .sub (.reg ⟨0⟩) (.reg ⟨3⟩),
        .nullary .nop, .binary .sbb (.reg ⟨1⟩) (.reg ⟨4⟩)]
    let out : LoweredBlock :=
      ⟨[⟨.binary .add (.reg ⟨0⟩) (.reg ⟨3⟩), false, 0⟩,
        ⟨.binary .adc (.reg ⟨1⟩) (.reg ⟨4⟩), false, 1⟩,
        ⟨.binary .mov (.reg ⟨6⟩) (.reg ⟨7⟩), false, 2⟩,
        ⟨.binary .sub (.reg ⟨6⟩) (.reg ⟨8⟩), false, 2⟩,
        ⟨.binary .sub (.reg ⟨0⟩) (.reg ⟨3⟩), false, 3⟩,
        ⟨.nullary .nop, true, 4⟩,
        ⟨.binary .sbb (.reg ⟨1⟩) (.reg ⟨4⟩), false, 5⟩]⟩
    (front ++ back).length ≤ amd64.maxBlockLen.toNat ∧
      (∀ i l, linkAt back i = some l → (∀ k < i, linkAt back k = none) → l.role ≠ .consume) ∧
      amd64.lowerBlock (front ++ back) = .ok out ∧
      ∃ frontOut backOut, amd64.lowerBlock front = .ok frontOut ∧
        amd64.lowerBlock back = .ok backOut ∧
        out = ⟨frontOut.items ++
          backOut.items.map fun x => { x with origin := front.length + x.origin }⟩ := by
  intro front back out
  have hfits : (front ++ back).length ≤ amd64.maxBlockLen.toNat := by decide
  have hcut : ∀ i l, linkAt back i = some l → (∀ k < i, linkAt back k = none) →
      l.role ≠ .consume := by
    intro i l hl hnone
    match i with
    | 0 => exact nomatch hl
    | 1 => exact Option.some.inj hl ▸ nofun
    | i + 2 => exact nomatch hnone 1 (by omega)
  have hout : amd64.lowerBlock (front ++ back) = .ok out := rfl
  exact ⟨hfits, hcut, hout, (lowerBlock_append amd64 front back hfits hcut out).mp hout⟩

end Target

end TwoAddress
