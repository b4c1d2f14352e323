/-
# `Pool` — workers that share a queue of jobs

Blocks do not depend on one another, so any number of workers may lower them at
the same time. The jobs are numbers in one queue. An idle worker takes the
first of them, computes its result, hands the result in and is idle again; once
the queue is empty it stops. No worker touches what another one holds.

Which worker acts next is left open: `State.act` says what an action of one
worker does, and a schedule is any list of actions. Results are handed in in
the order in which they are ready, and sorted by job only at the end
(`State.collect`).
-/

namespace TwoAddress.Pool

/-- What a worker is at. `β` is the type of results. -/
inductive Worker (β : Type) where
  | idle
  | holding (job : Nat)
  | ready (job : Nat) (result : β)
  | stopped
deriving DecidableEq, Repr

/-- The state of a pool whose workers report events of type `ε`. -/
structure State (ε β : Type) where
  /-- The jobs that nobody has taken. -/
  jobs : List Nat
  workers : List (Worker β)
  /-- The results that have been handed in. -/
  finished : List (Nat × β)
  /-- What the workers have reported. -/
  events : List ε
deriving DecidableEq, Repr

/-- What a worker may do next. -/
inductive Action where
  | take
  | compute
  | send
  | stop
deriving DecidableEq, Repr

variable {ε β : Type}

namespace State

def start (jobs workers : Nat) : State ε β :=
  ⟨List.range jobs, List.replicate workers .idle, [], []⟩

def setWorker (s : State ε β) (w : Nat) (worker : Worker β) : State ε β :=
  { s with workers := s.workers.set w worker }

/-- The state after an action of worker `w`, if it can act so. `work` gives the
events and the result of a job, which do not depend on anything else. -/
def act (work : (worker job : Nat) → List ε × β) (s : State ε β) (w : Nat) :
    Action → Option (State ε β)
  | .take =>
      match s.workers[w]?, s.jobs with
      | some .idle, job :: rest => some { s.setWorker w (.holding job) with jobs := rest }
      | _, _ => none
  | .compute =>
      match s.workers[w]? with
      | some (.holding job) =>
          let (events, result) := work w job
          some { s.setWorker w (.ready job result) with events := s.events ++ events }
      | _ => none
  | .send =>
      match s.workers[w]? with
      | some (.ready job result) =>
          some { s.setWorker w .idle with finished := s.finished ++ [(job, result)] }
      | _ => none
  | .stop =>
      match s.workers[w]?, s.jobs with
      | some .idle, [] => some (s.setWorker w .stopped)
      | _, _ => none

/-- The state after a schedule, in which actions that cannot be done are
skipped. -/
def run (work : (worker job : Nat) → List ε × β) : State ε β → List (Nat × Action) → State ε β
  | s, [] => s
  | s, (w, action) :: rest => ((s.act work w action).getD s).run work rest

/-- Whether no worker has anything left to do. -/
def isOver (s : State ε β) : Prop :=
  ∀ worker ∈ s.workers, worker = .stopped

/-- The results of the jobs below `count`, by job, or the first job without
result. -/
def collect (s : State ε β) (count : Nat) : Except Nat (List β) :=
  (List.range count).mapM fun job =>
    match s.finished.lookup job with
    | some result => .ok result
    | none => .error job

end State

/-- A schedule for `jobs` jobs in which the workers take turns, so that no job
is taken before the one before it is done. -/
def inTurn (jobs workers : Nat) : List (Nat × Action) :=
  let jobActions job :=
    let w := job % workers
    [(w, .take), (w, .compute), (w, .send)]
  (List.range jobs).flatMap jobActions ++ (List.range workers).map (·, .stop)

end TwoAddress.Pool
