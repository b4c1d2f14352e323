/-
# `Proofs.Lowering.Parallel` — any number of workers, in any order

The result of a job is that of its block, whoever computes it and whenever. So
what is known of pools carries over: the answer of a pool that is over is the
list of the results, block by block, which is what one worker alone would
answer.
-/
import TwoAddress.Lowering.Blocks
import TwoAddress.Proofs.Opcode.Tables
import TwoAddress.Proofs.Pool.Turns

namespace TwoAddress.Target

variable {t : Target} {blocks : List (List Instruction)}

theorem result_lowerJob (t : Target) (blocks : List (List Instruction)) (worker job : Nat) :
    (t.lowerJob blocks worker job).2 = t.lowerBlock (blocks[job]?.getD []) := by
  simp only [lowerJob, lowerBlock]
  cases (t.lowerBlockTraced (blocks[job]?.getD [])).outcome <;> rfl

theorem workerCount_pos (requested count : Nat) : 0 < workerCount requested count :=
  Nat.lt_of_lt_of_le Nat.one_pos (Nat.le_max_left 1 (min requested count))

theorem map_range_getD {α : Type} (f : List Instruction → α) (blocks : List (List Instruction)) :
    (List.range blocks.length).map (fun job => f (blocks[job]?.getD [])) = blocks.map f := by
  refine List.ext_getElem (by simp) ?_
  intro i h _
  have hi : i < blocks.length := by simpa using h
  simp [hi]

theorem map_range_lowerBlock (t : Target) (blocks : List (List Instruction)) :
    (List.range blocks.length).map (fun job => t.lowerBlock (blocks[job]?.getD [])) =
      blocks.map t.lowerBlock :=
  map_range_getD t.lowerBlock blocks

/-- The tables of operations are in order, so it is for the pool to answer. -/
theorem lowerBlocks_eq (t : Target) (blocks : List (List Instruction)) (requested : Nat) :
    t.lowerBlocks blocks requested =
      answer blocks (workerCount requested blocks.length)
        (t.poolAfter blocks (workerCount requested blocks.length)
          (Pool.inTurn blocks.length (workerCount requested blocks.length))) := by
  rw [lowerBlocks, Opcode.checkTables_eq_ok]
  rfl

/-- However many workers lower the blocks, and in whatever order they act, a
block waits in the queue, or one worker has it, or its result has been handed
in, and never two of these. When all workers have stopped, which every run can
be brought to, the answer is the result of every block in the order of the
blocks. So it is for the schedule that is carried out. -/
theorem lowerBlocks_every_schedule (t : Target) (blocks : List (List Instruction))
    (requested : Nat) :
    (∀ s, Pool.Reachable (t.lowerJob blocks) blocks.length
        (workerCount requested blocks.length) s →
      (s.jobs ++ s.inHand ++ s.done).Perm (List.range blocks.length) ∧
      (s.isOver → s.collect blocks.length = .ok (blocks.map t.lowerBlock)) ∧
      ∃ s', Relation.ReflTransGen (Pool.Step (t.lowerJob blocks)) s s' ∧ s'.isOver) ∧
    (t.lowerBlocks blocks requested).outcome = .ok (blocks.map t.lowerBlock) := by
  have hpos := workerCount_pos requested blocks.length
  have hanswer {s} (h : Pool.Reachable (t.lowerJob blocks) blocks.length
      (workerCount requested blocks.length) s) (hover : s.isOver) :
      s.collect blocks.length = .ok (blocks.map t.lowerBlock) := by
    rw [(h.consistent (result_lowerJob t blocks)).collect_of_isOver hpos hover,
      map_range_lowerBlock]
  constructor
  · intro s h
    exact ⟨(h.consistent (result_lowerJob t blocks)).partition, hanswer h,
      Pool.exists_over (t.lowerJob blocks) s⟩
  · have hreach := Pool.State.reachable_run (t.lowerJob blocks) blocks.length
      (workerCount requested blocks.length)
      (Pool.inTurn blocks.length (workerCount requested blocks.length))
    have hover := Pool.State.isOver_run_inTurn (t.lowerJob blocks) blocks.length hpos
    rw [lowerBlocks_eq, answer, poolAfter, hanswer hreach hover]
    rfl

/-- Two workers and two blocks, the second of which is handed in before the
first is. -/
theorem lowerBlocks_every_schedule_out_of_order :
    let blocks : List (List Instruction) :=
      [[.ternary .add3 (.reg ⟨0⟩) (.reg ⟨1⟩) (.imm 4)], [.binary .adc (.reg ⟨0⟩) (.reg ⟨1⟩)]]
    let s := amd64.poolAfter blocks 2 [(0, .take), (1, .take), (1, .compute), (1, .send)]
    Pool.Reachable (amd64.lowerJob blocks) 2 2 s ∧ s.done = [1] ∧ s.inHand = [0] ∧
      (s.jobs ++ s.inHand ++ s.done).Perm (List.range 2) := by
  intro blocks s
  have hreach : Pool.Reachable (amd64.lowerJob blocks) 2 2 s :=
    Pool.State.reachable_run (amd64.lowerJob blocks) 2 2 _
  exact ⟨hreach, rfl, rfl, ((lowerBlocks_every_schedule amd64 blocks 2).1 s hreach).1⟩

end TwoAddress.Target
