/-
# `Proofs.Pool.Reports` — what a pool has reported in the end

Workers report the events of a job when they compute it, so the events of a pool are
those of its jobs in whatever order these were computed. Something is read off the
events, piece by piece, and where it does not depend on the worker it is the same on
every run but for the order: what has been read off so far, and what the jobs that
nobody has begun on will add to it, are together what all jobs give (`Move.reports`,
`Reachable.reports`).
-/
import TwoAddress.Proofs.Pool.Partition

namespace TwoAddress.Pool

variable {ε β γ : Type} {work : (worker job : Nat) → List ε × β} {s s' : State ε β}
  {jobs workers : Nat} {result : Nat → β} {read : ε → List γ} {report : Nat → List γ}

/-- The job that a worker has taken and not begun on. -/
def Worker.unbegun? : Worker β → Option Nat
  | holding job => some job
  | _ => none

/-- The jobs whose events are still to come. -/
def State.silent (s : State ε β) : List Nat :=
  s.jobs ++ s.workers.filterMap Worker.unbegun?

theorem Move.reports (hwork : ∀ w job, (work w job).1.flatMap read = report job) {w : Nat}
    (hm : Move work w s s') :
    (s'.events.flatMap read ++ s'.silent.flatMap report).Perm
      (s.events.flatMap read ++ s.silent.flatMap report) := by
  cases hm with
  | @take job rest ws fin es hw =>
      have hperm := filterMap_set_perm Worker.unbegun? (.holding job) hw
      have hsilent : (rest ++ (ws.set w (.holding job)).filterMap Worker.unbegun?).Perm
          (job :: rest ++ ws.filterMap Worker.unbegun?) :=
        (hperm.append_left rest).trans List.perm_middle
      exact (hsilent.flatMap_right report).append_left _
  | @compute job js ws fin es hw =>
      obtain ⟨x, hx⟩ : ∃ x, x = (work w job).2 := ⟨_, rfl⟩
      rw [← hx]
      -- the only move that reports: the job is no longer among the silent ones
      have hperm := filterMap_set_perm Worker.unbegun? (.ready job x) hw
      have hsilent : (job :: (js ++ (ws.set w (.ready job x)).filterMap Worker.unbegun?)).Perm
          (js ++ ws.filterMap Worker.unbegun?) :=
        List.perm_middle.symm.trans (hperm.append_left js)
      have hreports := (hsilent.flatMap_right report).append_left (es.flatMap read)
      rw [List.flatMap_cons, ← hwork w job, ← List.append_assoc, ← List.flatMap_append] at hreports
      exact hreports
  | @send job x js ws fin es hw =>
      have hperm := filterMap_set_perm Worker.unbegun? .idle hw
      exact ((hperm.append_left js).flatMap_right report).append_left _
  | @stop ws fin es hw =>
      have hperm := filterMap_set_perm Worker.unbegun? .stopped hw
      exact (hperm.flatMap_right report).append_left _

theorem silent_start (jobs workers : Nat) :
    (State.start jobs workers : State ε β).silent = List.range jobs := by
  have hnone : (List.replicate workers (Worker.idle (β := β))).filterMap Worker.unbegun? = [] :=
    List.filterMap_eq_nil_iff.mpr fun worker h => by rw [List.eq_of_mem_replicate h]; rfl
  rw [State.silent, State.start, hnone, List.append_nil]

/-- What has been read off and what is still to come are the same on every run. -/
theorem Reachable.reports (hwork : ∀ w job, (work w job).1.flatMap read = report job)
    (h : Reachable work jobs workers s) :
    (s.events.flatMap read ++ s.silent.flatMap report).Perm
      ((List.range jobs).flatMap report) := by
  have hrun : Relation.ReflTransGen (Step work) (State.start jobs workers) s := h
  clear h
  induction hrun with
  | refl => rw [silent_start]; rfl
  | tail _ hstep ih =>
      obtain ⟨w, hmove⟩ := hstep.move
      exact (hmove.reports hwork).trans ih

/-- A pool that is over has reported what all jobs give. -/
theorem Reachable.reports_of_isOver (hwork : ∀ w job, (work w job).1.flatMap read = report job)
    (h : Reachable work jobs workers s) (hc : Consistent jobs workers result s)
    (hpos : 0 < workers) (hover : s.isOver) :
    (s.events.flatMap read).Perm ((List.range jobs).flatMap report) := by
  have hsilent : s.silent = [] := by
    rw [State.silent, hc.jobs_of_isOver hpos hover, hover.filterMap_eq_nil rfl, List.append_nil]
  have hreports := h.reports hwork
  rwa [hsilent, List.flatMap_nil, List.append_nil] at hreports

end TwoAddress.Pool
