/-
# `Proofs.Pool.Turns` — schedules that are carried out

`State.run` carries out a schedule and skips what cannot be done, so whatever it
leads to lies on a run of the pool (`reachable_run`). The schedule in which the
workers take turns skips nothing: each turn finds its worker idle and a job
waiting (`run_turn`), and at the end all workers are idle and stop (`run_inTurn`).
-/
import TwoAddress.Proofs.Pool.Partition

namespace TwoAddress.Pool

variable {ε β : Type} {work : (worker job : Nat) → List ε × β} {s s' : State ε β}
  {ws : List (Worker β)} {fin : List (Nat × β)} {es : List ε} {w k : Nat}

namespace State

theorem run_cons_of_act {action : Action} {rest : List (Nat × Action)}
    (h : s.act work w action = some s') :
    s.run work ((w, action) :: rest) = s'.run work rest := by
  rw [run, h]
  rfl

theorem run_append (s : State ε β) (first second : List (Nat × Action)) :
    s.run work (first ++ second) = (s.run work first).run work second := by
  induction first generalizing s with
  | nil => rfl
  | cons x rest ih => exact ih _

theorem reachable_run (work : (worker job : Nat) → List ε × β) (jobs workers : Nat)
    (schedule : List (Nat × Action)) :
    Reachable work jobs workers ((start jobs workers).run work schedule) := by
  have steps (s : State ε β) (schedule : List (Nat × Action)) :
      Relation.ReflTransGen (Step work) s (s.run work schedule) := by
    induction schedule generalizing s with
    | nil => exact .refl
    | cons x rest ih =>
        obtain ⟨w, action⟩ := x
        cases hact : s.act work w action with
        | none =>
            rw [run, hact]
            exact ih s
        | some s' =>
            rw [run_cons_of_act hact]
            exact .head ⟨w, action, hact⟩ (ih s')
  exact steps _ schedule

/-! ## Taking turns -/

theorem set_self {x : Worker β} (h : ws[w]? = some x) : ws.set w x = ws := by
  obtain ⟨hw, rfl⟩ := List.getElem?_eq_some_iff.mp h
  exact List.set_getElem_self hw

theorem run_turn {job : Nat} {rest : List Nat} (h : ws[w]? = some .idle) :
    run work ⟨job :: rest, ws, fin, es⟩ [(w, .take), (w, .compute), (w, .send)] =
      ⟨rest, ws, fin ++ [(job, (work w job).2)], es ++ (work w job).1⟩ := by
  have hlt : w < ws.length := (List.getElem?_eq_some_iff.mp h).1
  have htake : act work ⟨job :: rest, ws, fin, es⟩ w .take =
      some ⟨rest, ws.set w (.holding job), fin, es⟩ := by
    simp only [act, h]
    rfl
  have hcompute : act work ⟨rest, ws.set w (.holding job), fin, es⟩ w .compute =
      some ⟨rest, ws.set w (.ready job (work w job).2), fin, es ++ (work w job).1⟩ := by
    simp only [act, List.getElem?_set_self hlt, setWorker, List.set_set]
  have hsend : act work
      ⟨rest, ws.set w (.ready job (work w job).2), fin, es ++ (work w job).1⟩ w .send =
      some ⟨rest, ws, fin ++ [(job, (work w job).2)], es ++ (work w job).1⟩ := by
    simp only [act, List.getElem?_set_self hlt, setWorker, List.set_set, set_self h]
  rw [run_cons_of_act htake, run_cons_of_act hcompute, run_cons_of_act hsend]
  rfl

/-- Turn by turn, all jobs are done by workers that are idle in between. Each job
reports before the next one is taken. -/
theorem run_turns (js : List Nat) (hk : 0 < k) :
    ∃ fin', run work ⟨js, List.replicate k .idle, fin, es⟩
      (js.flatMap fun job => [(job % k, .take), (job % k, .compute), (job % k, .send)]) =
        ⟨[], List.replicate k .idle, fin', es ++ js.flatMap fun job => (work (job % k) job).1⟩ := by
  induction js generalizing fin es with
  | nil =>
      refine ⟨fin, ?_⟩
      rw [List.flatMap_nil, List.flatMap_nil, List.append_nil]
      rfl
  | cons job rest ih =>
      have hidle : (List.replicate k (Worker.idle (β := β)))[job % k]? = some .idle :=
        List.getElem?_replicate_of_lt (Nat.mod_lt job hk)
      rw [List.flatMap_cons, run_append, run_turn hidle, List.flatMap_cons, ← List.append_assoc]
      exact ih

/-- With no job waiting, the idle workers stop one after the other. The
induction is on those that are still idle, which stand behind the others. -/
theorem run_stops (stopped idle : Nat) :
    run work ⟨[], List.replicate stopped .stopped ++ List.replicate idle .idle, fin, es⟩
      ((List.range' stopped idle).map (·, .stop)) =
        ⟨[], List.replicate (stopped + idle) .stopped, fin, es⟩ := by
  induction idle generalizing stopped with
  | zero =>
      rw [List.replicate_zero, List.append_nil]
      rfl
  | succ n ih =>
      have hlen : (List.replicate stopped (Worker.stopped (β := β))).length = stopped :=
        List.length_replicate
      have hidle : (List.replicate stopped (Worker.stopped (β := β)) ++
          List.replicate (n + 1) .idle)[stopped]? = some .idle := by
        rw [List.getElem?_append_right (Nat.le_of_eq hlen), hlen, Nat.sub_self]
        rfl
      have hstop : act work ⟨[], List.replicate stopped .stopped ++
            List.replicate (n + 1) .idle, fin, es⟩ stopped .stop =
          some ⟨[], List.replicate (stopped + 1) .stopped ++ List.replicate n .idle, fin, es⟩ := by
        simp only [act, hidle, setWorker]
        rw [List.set_append_right _ _ (Nat.le_of_eq hlen), hlen, Nat.sub_self, List.replicate_succ,
          List.set_cons_zero, List.append_cons, List.replicate_succ']
      rw [List.range'_succ, List.map_cons, run_cons_of_act hstop, ih, Nat.add_right_comm]
      rfl

/-- Taking turns brings a pool to its end, with the events in the order of the jobs. -/
theorem run_inTurn (work : (worker job : Nat) → List ε × β) (jobs : Nat) {workers : Nat}
    (h : 0 < workers) :
    ∃ fin, (start jobs workers).run work (inTurn jobs workers) =
      ⟨[], List.replicate workers .stopped, fin,
        (List.range jobs).flatMap fun job => (work (job % workers) job).1⟩ := by
  obtain ⟨fin, hturns⟩ : ∃ fin, run work (start jobs workers)
      ((List.range jobs).flatMap fun job =>
        [(job % workers, .take), (job % workers, .compute), (job % workers, .send)]) =
          ⟨[], List.replicate workers .idle, fin,
            [] ++ (List.range jobs).flatMap fun job => (work (job % workers) job).1⟩ :=
    run_turns (List.range jobs) h
  -- the events get a name, since the schedule is built from the same list
  obtain ⟨es, hes⟩ : ∃ es, es = (List.range jobs).flatMap fun job => (work (job % workers) job).1 :=
    ⟨_, rfl⟩
  rw [List.nil_append, ← hes] at hturns
  have hstops : run work ⟨[], List.replicate workers .idle, fin, es⟩
      ((List.range workers).map (·, .stop)) =
        ⟨[], List.replicate workers .stopped, fin, es⟩ := by
    have hall : run work ⟨[], List.replicate 0 .stopped ++ _, fin, es⟩ _ = _ :=
      run_stops 0 workers
    rwa [List.replicate_zero, List.nil_append, ← List.range_eq_range', Nat.zero_add] at hall
  rw [inTurn, run_append, hturns, hstops, hes]
  exact ⟨fin, rfl⟩

theorem isOver_run_inTurn (work : (worker job : Nat) → List ε × β) (jobs : Nat)
    {workers : Nat} (h : 0 < workers) :
    ((start jobs workers).run work (inTurn jobs workers)).isOver := by
  obtain ⟨fin, hrun⟩ := run_inTurn work jobs h
  rw [hrun]
  intro worker hmem
  exact List.eq_of_mem_replicate hmem

end State

end TwoAddress.Pool
