/-
# `Proofs.Command.Run` — what a run can come to

A run begins once it has a target and its listing has been read (`Begins`); one
that does not begin prints nothing (`run_of_not_begins`). From there on it is in
the hands of the workers, and whichever of them acts when, the run ends when all
have stopped (`Ends`). The run that `run` carries out is one of these
(`ends_run`).

All of them agree on what is printed and on whether the run is a success
(`Ends.success_eq`, `Ends.output_eq`): both are read off the results of the blocks.
-/
import TwoAddress.Command
import TwoAddress.Proofs.Lowering.Parallel

namespace TwoAddress.Command

variable {o : Options} {target listing : Contents} {t : Target}
  {blocks : List (List Instruction)} {r r' : Result}

/-! ## The beginning -/

/-- There is a target, by its file or as the preset. -/
def HasTarget (o : Options) (target : Contents) (t : Target) : Prop :=
  match o.target with
  | none => t = .amd64
  | some _ => loadTarget target = .ok t

/-- A run has a target and blocks to lower. -/
structure Begins (o : Options) (target listing : Contents) (t : Target)
    (blocks : List (List Instruction)) : Prop where
  target : HasTarget o target t
  listing : ∃ source, listing = .ok source ∧ Assembly.blocks source = .ok blocks

theorem runFor_eq {source : List Char} (h : Assembly.blocks source = .ok blocks) :
    runFor o t (.ok source) = lowerAll o t blocks := by
  simp only [runFor, h]

theorem Begins.run_eq (h : Begins o target listing t blocks) :
    run o target listing = lowerAll o t blocks := by
  obtain ⟨htarget, source, rfl, hsource⟩ := h
  rw [HasTarget] at htarget
  rw [run]
  split
  case h_1 hnone =>
    rw [hnone] at htarget
    have hpreset : t = .amd64 := htarget
    rw [← hpreset, runFor_eq hsource]
  case h_2 file hfile =>
    rw [hfile] at htarget
    have hload : loadTarget target = .ok t := htarget
    simp only [hload]
    exact runFor_eq hsource

theorem runFor_of_no_blocks (h : ∀ source blocks, listing = .ok source →
    Assembly.blocks source ≠ .ok blocks) : ∃ events, runFor o t listing = failed events := by
  cases listing with
  | error reason => exact ⟨_, rfl⟩
  | ok source =>
      simp only [runFor]
      split
      case h_1 => exact ⟨_, rfl⟩
      case h_2 blocks hblocks => exact absurd hblocks (h source blocks rfl)

/-- A run that does not begin is no success and prints nothing. -/
theorem run_of_not_begins (h : ∀ t blocks, ¬ Begins o target listing t blocks) :
    ∃ events, run o target listing = failed events := by
  have hlisting (t : Target) (ht : HasTarget o target t) :
      ∃ events, runFor o t listing = failed events :=
    runFor_of_no_blocks fun source blocks hs hb => h t blocks ⟨ht, source, hs, hb⟩
  rw [run]
  split
  case h_1 hnone => exact hlisting .amd64 (by rw [HasTarget, hnone])
  case h_2 file hfile =>
    split
    case h_1 => exact ⟨_, rfl⟩
    case h_2 t ht => exact hlisting t (by rw [HasTarget, hfile]; exact ht)

/-! ## The end -/

/-- What a run that has begun can come to, whichever worker acts when. -/
def Ends (o : Options) (t : Target) (blocks : List (List Instruction)) (r : Result) : Prop :=
  ∃ s, Pool.Reachable (t.lowerJob blocks) blocks.length
      (Target.workerCount o.workers blocks.length) s ∧ s.isOver ∧
    r = conclude o t blocks
      (Target.answer blocks (Target.workerCount o.workers blocks.length) s)

/-- The run that is carried out, in which the workers take turns, is one of those that
are possible. -/
theorem ends_lowerAll (o : Options) (t : Target) (blocks : List (List Instruction)) :
    Ends o t blocks (lowerAll o t blocks) := by
  rw [lowerAll, Target.lowerBlocks_eq]
  exact ⟨_, Pool.State.reachable_run _ _ _ _,
    Pool.State.isOver_run_inTurn _ _ (Target.workerCount_pos o.workers blocks.length), rfl⟩

theorem ends_run (h : Begins o target listing t blocks) :
    Ends o t blocks (run o target listing) := by
  rw [h.run_eq]
  exact ends_lowerAll o t blocks

/-- The end of a run whose workers have stopped: the results of the blocks, in their
order, whatever the order of the events. -/
theorem conclude_answer {s : Pool.State Event (Except Error LoweredBlock)}
    (hreach : Pool.Reachable (t.lowerJob blocks) blocks.length
      (Target.workerCount o.workers blocks.length) s) (hover : s.isOver)
    (hr : r = conclude o t blocks
      (Target.answer blocks (Target.workerCount o.workers blocks.length) s)) :
    r.success = (missing (blocks.map t.lowerBlock)).isEmpty ∧
      r.output = render o.format ((blocks.map t.lowerBlock).map lowered?) ∧
      r.metrics = (if o.metrics then (Metrics.ofEvents r.events).lines else []) ∧
      r.events = .runStarted blocks.length t.name ::
        .poolStarted blocks.length (Target.workerCount o.workers blocks.length) ::
          (s.events ++ missing (blocks.map t.lowerBlock)) := by
  have hcollect : s.collect blocks.length = .ok (blocks.map t.lowerBlock) := by
    rw [(hreach.consistent (Target.result_lowerJob t blocks)).collect_of_isOver
      (Target.workerCount_pos _ _) hover, Target.map_range_lowerBlock]
  have houtcome : (Target.answer blocks (Target.workerCount o.workers blocks.length) s).outcome =
      .ok (blocks.map t.lowerBlock) := by
    rw [Target.answer, hcollect]
    rfl
  rw [hr, conclude, houtcome]
  exact ⟨rfl, rfl, rfl, rfl⟩

theorem Ends.output_eq (h : Ends o t blocks r) :
    r.output = render o.format (blocks.map fun b => lowered? (t.lowerBlock b)) := by
  obtain ⟨s, hreach, hover, hr⟩ := h
  rw [(conclude_answer hreach hover hr).2.1, List.map_map]
  rfl

theorem Ends.metrics_eq (h : Ends o t blocks r) :
    r.metrics = if o.metrics then (Metrics.ofEvents r.events).lines else [] := by
  obtain ⟨s, hreach, hover, hr⟩ := h
  exact (conclude_answer hreach hover hr).2.2.1

end TwoAddress.Command
