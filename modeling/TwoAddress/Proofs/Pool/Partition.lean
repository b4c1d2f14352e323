/-
# `Proofs.Pool.Partition` — every job is somewhere, and only there

Any worker may act next, so a run of a pool is any sequence of actions that can
be done (`Reachable`). What holds in all of them is `Consistent`: a job waits in
the queue, or one worker has it, or its result has been handed in, and never two
of these (`partition`); a result is that of its own job; and nobody has stopped
while jobs were waiting. Each action keeps it, and so a pool that is over has
handed in every result once (`collect_of_isOver`).

This is not promised in vain: as long as some worker has not stopped, some worker
can act, and every action brings the end nearer (`exists_step`, `Step.load_lt`),
so that every run can be brought to its end (`exists_over`).
-/
import Mathlib.Data.List.Perm.Basic
import Mathlib.Logic.Relation
import TwoAddress.Pool

namespace TwoAddress.Pool

variable {ε β : Type} {work : (worker job : Nat) → List ε × β} {s s' : State ε β}
  {jobs workers : Nat} {result : Nat → β}

/-! ## Moves -/

/-- The job that a worker has. -/
def Worker.job? : Worker β → Option Nat
  | idle | stopped => none
  | holding job | ready job _ => some job

/-- The jobs that workers have. -/
def State.inHand (s : State ε β) : List Nat :=
  s.workers.filterMap Worker.job?

/-- The jobs whose results have been handed in. -/
def State.done (s : State ε β) : List Nat :=
  s.finished.map (·.1)

/-- Some worker does something. -/
def Step (work : (worker job : Nat) → List ε × β) (s s' : State ε β) : Prop :=
  ∃ w action, s.act work w action = some s'

/-- The states of a pool that lie on some run from its start. -/
def Reachable (work : (worker job : Nat) → List ε × β) (jobs workers : Nat) (s : State ε β) :
    Prop :=
  Relation.ReflTransGen (Step work) (State.start jobs workers) s

/-- All that worker `w` can do in a state, with what becomes of the state. -/
inductive Move (work : (worker job : Nat) → List ε × β) (w : Nat) : State ε β → State ε β → Prop
  | take {job : Nat} {rest : List Nat} {ws : List (Worker β)} {fin : List (Nat × β)}
      {es : List ε} : ws[w]? = some .idle →
      Move work w ⟨job :: rest, ws, fin, es⟩ ⟨rest, ws.set w (.holding job), fin, es⟩
  | compute {job : Nat} {js : List Nat} {ws : List (Worker β)} {fin : List (Nat × β)}
      {es : List ε} : ws[w]? = some (.holding job) →
      Move work w ⟨js, ws, fin, es⟩
        ⟨js, ws.set w (.ready job (work w job).2), fin, es ++ (work w job).1⟩
  | send {job : Nat} {x : β} {js : List Nat} {ws : List (Worker β)} {fin : List (Nat × β)}
      {es : List ε} : ws[w]? = some (.ready job x) →
      Move work w ⟨js, ws, fin, es⟩ ⟨js, ws.set w .idle, fin ++ [(job, x)], es⟩
  | stop {ws : List (Worker β)} {fin : List (Nat × β)} {es : List ε} : ws[w]? = some .idle →
      Move work w ⟨[], ws, fin, es⟩ ⟨[], ws.set w .stopped, fin, es⟩

theorem Step.move (h : Step work s s') : ∃ w, Move work w s s' := by
  obtain ⟨w, action, hact⟩ := h
  obtain ⟨js, ws, fin, es⟩ := s
  refine ⟨w, ?_⟩
  cases action with
  | take =>
      simp only [State.act] at hact
      split at hact
      case h_1 job rest hw =>
        cases hact
        exact .take hw
      case h_2 => exact nomatch hact
  | compute =>
      simp only [State.act] at hact
      split at hact
      case h_1 hw =>
        cases hact
        exact .compute hw
      case h_2 => exact nomatch hact
  | send =>
      simp only [State.act] at hact
      split at hact
      case h_1 hw =>
        cases hact
        exact .send hw
      case h_2 => exact nomatch hact
  | stop =>
      simp only [State.act] at hact
      split at hact
      case h_1 hw =>
        cases hact
        exact .stop hw
      case h_2 => exact nomatch hact

theorem Move.step {w : Nat} (h : Move work w s s') : Step work s s' := by
  refine ⟨w, ?_⟩
  cases h with
  | take hw =>
      refine ⟨.take, ?_⟩
      simp only [State.act, hw]
      rfl
  | compute hw =>
      refine ⟨.compute, ?_⟩
      simp only [State.act, hw]
      rfl
  | send hw =>
      refine ⟨.send, ?_⟩
      simp only [State.act, hw]
      rfl
  | stop hw =>
      refine ⟨.stop, ?_⟩
      simp only [State.act, hw]
      rfl

/-! ## The invariant -/

/-- What holds in every state of a run on which `result` gives the results. -/
structure Consistent (jobs workers : Nat) (result : Nat → β) (s : State ε β) : Prop where
  /-- Every job is in one place. -/
  partition : (s.jobs ++ s.inHand ++ s.done).Perm (List.range jobs)
  /-- What a worker is going to hand in is the result of its job. -/
  ready : ∀ job x, .ready job x ∈ s.workers → x = result job
  /-- What has been handed in is the result of its job. -/
  handedIn : ∀ job x, (job, x) ∈ s.finished → x = result job
  /-- A worker stops only when no job is waiting. -/
  stopped : .stopped ∈ s.workers → s.jobs = []
  size : s.workers.length = workers

theorem consistent_start (jobs workers : Nat) (result : Nat → β) :
    Consistent jobs workers result (State.start jobs workers : State ε β) := by
  have idle {worker : Worker β} (h : worker ∈ List.replicate workers .idle) : worker = .idle :=
    List.eq_of_mem_replicate h
  refine ⟨?_, ?_, ?_, ?_, ?_⟩
  · have hnone : (List.replicate workers (Worker.idle (β := β))).filterMap Worker.job? = [] :=
      List.filterMap_eq_nil_iff.mpr fun worker h => by rw [idle h]; rfl
    show (List.range jobs ++ (List.replicate workers Worker.idle).filterMap Worker.job? ++
      []).Perm _
    rw [hnone, List.append_nil, List.append_nil]
  · intro job x h
    exact nomatch idle h
  · intro job x h
    exact nomatch h
  · intro h
    exact nomatch idle h
  · exact List.length_replicate

/-- With one worker at something else, what is read off the workers changes by what is
read off that one. The induction follows the list up to it. -/
theorem filterMap_set_perm {γ : Type} (f : Worker β → Option γ) {ws : List (Worker β)} {w : Nat}
    {old : Worker β} (new : Worker β) (h : ws[w]? = some old) :
    ((f old).toList ++ (ws.set w new).filterMap f).Perm ((f new).toList ++ ws.filterMap f) := by
  have cons (x : Worker β) (l : List (Worker β)) : (x :: l).filterMap f =
      (f x).toList ++ l.filterMap f := by
    cases hx : f x <;> simp [hx]
  induction ws generalizing w with
  | nil => exact nomatch h
  | cons x rest ih =>
      cases w with
      | zero =>
          obtain rfl : x = old := Option.some.inj h
          rw [List.set_cons_zero, cons, cons]
          exact List.perm_append_comm_assoc _ _ _
      | succ w =>
          rw [List.set_cons_succ, cons, cons]
          exact (List.perm_append_comm_assoc _ _ _).trans
            (((ih h).append_left _).trans (List.perm_append_comm_assoc _ _ _))

theorem mem_of_mem_set {ws : List (Worker β)} {w : Nat} {x new : Worker β}
    (h : x ∈ ws.set w new) (hne : x ≠ new) : x ∈ ws :=
  (List.mem_or_eq_of_mem_set h).resolve_right hne

/-- Every move keeps the invariant. -/
theorem Consistent.move (hwork : ∀ w job, (work w job).2 = result job) {w : Nat}
    (h : Consistent jobs workers result s) (hm : Move work w s s') :
    Consistent jobs workers result s' := by
  cases hm with
  | @take job rest ws fin es hw =>
      have hperm := filterMap_set_perm Worker.job? (.holding job) hw
      refine ⟨?_, ?_, h.handedIn, ?_, ?_⟩
      · refine List.Perm.trans ?_ h.partition
        -- the job goes from the head of the queue to the worker
        have hin : (rest ++ (ws.set w (.holding job)).filterMap Worker.job?).Perm
            (job :: rest ++ ws.filterMap Worker.job?) :=
          (hperm.append_left rest).trans List.perm_middle
        exact hin.append_right _
      · intro j x hj
        exact h.ready j x (mem_of_mem_set hj (by simp))
      · intro hs
        exact nomatch h.stopped (mem_of_mem_set hs (by simp))
      · exact List.length_set.trans h.size
  | @compute job js ws fin es hw =>
      have hperm := filterMap_set_perm Worker.job? (.ready job (work w job).2) hw
      refine ⟨?_, ?_, h.handedIn, ?_, ?_⟩
      · refine List.Perm.trans ?_ h.partition
        exact (((List.perm_cons job).mp hperm).append_left js).append_right _
      · intro j x hj
        rcases List.mem_or_eq_of_mem_set hj with hold | hnew
        · exact h.ready j x hold
        · cases hnew
          exact hwork w job
      · intro hs
        exact h.stopped (mem_of_mem_set hs (by simp))
      · exact List.length_set.trans h.size
  | @send job y js ws fin es hw =>
      have hperm := filterMap_set_perm Worker.job? .idle hw
      refine ⟨?_, ?_, ?_, ?_, ?_⟩
      · refine List.Perm.trans ?_ h.partition
        show (js ++ (ws.set w .idle).filterMap Worker.job? ++ (fin ++ [(job, y)]).map (·.1)).Perm
          (js ++ ws.filterMap Worker.job? ++ fin.map (·.1))
        -- the job goes from the worker to the end of what is handed in
        rw [List.map_append, ← List.append_assoc]
        have hin : (js ++ job :: (ws.set w .idle).filterMap Worker.job?).Perm
            (js ++ ws.filterMap Worker.job?) := hperm.append_left js
        refine (List.perm_append_singleton job _).trans ?_
        exact (List.perm_middle.symm.trans hin).append_right (fin.map (·.1))
      · intro j x hj
        exact h.ready j x (mem_of_mem_set hj (by simp))
      · intro j x hj
        rcases List.mem_append.mp hj with hold | hnew
        · exact h.handedIn j x hold
        · cases List.mem_singleton.mp hnew
          exact h.ready job y (List.mem_of_getElem? hw)
      · intro hs
        exact h.stopped (mem_of_mem_set hs (by simp))
      · exact List.length_set.trans h.size
  | @stop ws fin es hw =>
      have hperm := filterMap_set_perm Worker.job? .stopped hw
      refine ⟨?_, ?_, h.handedIn, fun _ => rfl, ?_⟩
      · exact (hperm.append_right _).trans h.partition
      · intro j x hj
        exact h.ready j x (mem_of_mem_set hj (by simp))
      · exact List.length_set.trans h.size

theorem Reachable.consistent (hwork : ∀ w job, (work w job).2 = result job)
    (h : Reachable work jobs workers s) : Consistent jobs workers result s := by
  have hrun : Relation.ReflTransGen (Step work) (State.start jobs workers) s := h
  clear h
  induction hrun with
  | refl => exact consistent_start jobs workers result
  | tail _ hstep ih =>
      obtain ⟨w, hmove⟩ := hstep.move
      exact ih.move hwork hmove

/-! ## The end of a run -/

theorem mapM_ok {α γ δ : Type} {f : α → Except γ δ} {g : α → δ} {l : List α}
    (h : ∀ a ∈ l, f a = .ok (g a)) : l.mapM f = .ok (l.map g) := by
  induction l with
  | nil => rfl
  | cons a rest ih =>
      rw [List.mapM_cons, h a List.mem_cons_self,
        ih fun b hb => h b (List.mem_cons_of_mem a hb)]
      rfl

theorem Consistent.jobs_of_isOver (h : Consistent jobs workers result s) (hpos : 0 < workers)
    (hover : s.isOver) : s.jobs = [] := by
  obtain ⟨worker, hmem⟩ := List.exists_mem_of_length_pos (h.size.symm ▸ hpos)
  exact h.stopped (hover worker hmem ▸ hmem)

theorem State.isOver.filterMap_eq_nil {γ : Type} {f : Worker β → Option γ} (hover : s.isOver)
    (hf : f .stopped = none) : s.workers.filterMap f = [] :=
  List.filterMap_eq_nil_iff.mpr fun worker hmem => by rw [hover worker hmem, hf]

theorem Consistent.done_of_isOver (h : Consistent jobs workers result s) (hpos : 0 < workers)
    (hover : s.isOver) : s.done.Perm (List.range jobs) := by
  have hhand : s.inHand = [] := hover.filterMap_eq_nil rfl
  have hperm := h.partition
  rw [h.jobs_of_isOver hpos hover, hhand] at hperm
  exact hperm

/-- A pool that is over has the result of every job, in the order of the
jobs. -/
theorem Consistent.collect_of_isOver (h : Consistent jobs workers result s) (hpos : 0 < workers)
    (hover : s.isOver) : s.collect jobs = .ok ((List.range jobs).map result) := by
  refine mapM_ok ?_
  intro job hjob
  have hdone : job ∈ s.done := (h.done_of_isOver hpos hover).mem_iff.mpr hjob
  obtain ⟨⟨job', x⟩, hmem, hkey⟩ := List.mem_map.mp hdone
  obtain rfl : job' = job := hkey
  cases hlookup : s.finished.lookup job' with
  | none =>
      have hno := List.lookup_eq_none_iff.mp hlookup _ hmem
      simp at hno
  | some y =>
      obtain ⟨l₁, l₂, hsplit, _⟩ := List.lookup_eq_some_iff.mp hlookup
      have hy : (job', y) ∈ s.finished := by
        rw [hsplit]
        exact List.mem_append_right l₁ List.mem_cons_self
      rw [h.handedIn job' y hy]

/-! ## Progress -/

/-- How much a worker still has to do with what it has, and to stop. -/
def Worker.load : Worker β → Nat
  | stopped => 0
  | idle => 1
  | ready .. => 2
  | holding _ => 3

def totalLoad : List (Worker β) → Nat
  | [] => 0
  | worker :: rest => worker.load + totalLoad rest

/-- How much is still to be done. A waiting job counts for more than it does
when it has been taken. -/
def State.load (s : State ε β) : Nat :=
  4 * s.jobs.length + totalLoad s.workers

theorem totalLoad_set {ws : List (Worker β)} {w : Nat} {old : Worker β} (new : Worker β)
    (h : ws[w]? = some old) :
    old.load + totalLoad (ws.set w new) = new.load + totalLoad ws := by
  induction ws generalizing w with
  | nil => exact nomatch h
  | cons x rest ih =>
      cases w with
      | zero =>
          obtain rfl : x = old := Option.some.inj h
          simp only [List.set_cons_zero, totalLoad]
          omega
      | succ w =>
          have hrest := ih h
          simp only [List.set_cons_succ, totalLoad]
          omega

/-- Every step leaves less to be done, so no run goes on for ever. -/
theorem Step.load_lt (h : Step work s s') : s'.load < s.load := by
  obtain ⟨w, hmove⟩ := h.move
  cases hmove with
  | @take job rest ws fin es hw =>
      have hsum := totalLoad_set (.holding job) hw
      simp only [State.load, List.length_cons, Worker.load] at hsum ⊢
      omega
  | @compute job js ws fin es hw =>
      have hsum := totalLoad_set (.ready job (work w job).2) hw
      simp only [State.load, Worker.load] at hsum ⊢
      omega
  | send hw =>
      have hsum := totalLoad_set .idle hw
      simp only [State.load, Worker.load] at hsum ⊢
      omega
  | stop hw =>
      have hsum := totalLoad_set .stopped hw
      simp only [State.load, Worker.load] at hsum ⊢
      omega

theorem exists_step (work : (worker job : Nat) → List ε × β) (h : ¬ s.isOver) :
    ∃ s', Step work s s' := by
  obtain ⟨js, ws, fin, es⟩ := s
  obtain ⟨worker, hrest⟩ := not_forall.mp h
  obtain ⟨hmem, hne⟩ := Classical.not_imp.mp hrest
  obtain ⟨w, hw⟩ := List.getElem?_of_mem hmem
  have hw' : ws[w]? = some worker := hw
  cases worker with
  | stopped => exact absurd rfl hne
  | holding job => exact ⟨_, (Move.compute hw').step⟩
  | ready job x => exact ⟨_, (Move.send hw').step⟩
  | idle =>
      cases js with
      | nil => exact ⟨_, (Move.stop hw').step⟩
      | cons job rest => exact ⟨_, (Move.take hw').step⟩

/-- Every run can be brought to its end. -/
theorem exists_over (work : (worker job : Nat) → List ε × β) (s : State ε β) :
    ∃ s', Relation.ReflTransGen (Step work) s s' ∧ s'.isOver := by
  -- every step leaves less to do, so the induction is on what is left
  induction hload : s.load using Nat.strongRecOn generalizing s with
  | ind n ih =>
      by_cases hover : s.isOver
      · exact ⟨s, .refl, hover⟩
      · obtain ⟨s₁, hstep⟩ := exists_step work hover
        obtain ⟨s', hrun, hover'⟩ := ih s₁.load (hload ▸ hstep.load_lt) s₁ rfl
        exact ⟨s', .head hstep hrun, hover'⟩

end TwoAddress.Pool
