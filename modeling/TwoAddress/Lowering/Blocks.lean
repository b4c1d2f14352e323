/-
# `Lowering.Blocks` — lowering the blocks of a listing

Each block is a job of a pool of workers. A block that is refused does not keep
the others from being lowered.
-/
import TwoAddress.Lowering
import TwoAddress.Pool

namespace TwoAddress.Target

/-- The job of lowering one of the blocks. -/
def lowerJob (t : Target) (blocks : List (List Instruction)) (worker job : Nat) :
    List Event × Except Error LoweredBlock :=
  let result := t.lowerBlockTraced (blocks[job]?.getD [])
  match result.outcome with
  | .ok out => (result.events, .ok out)
  | .error e => (result.events ++ [.jobFailed worker job e], .error e)

/-- The number of workers that is used where `requested` ones are asked for: at
least one, and none that would find no block. -/
def workerCount (requested blocks : Nat) : Nat :=
  max 1 (min requested blocks)

def poolAfter (t : Target) (blocks : List (List Instruction)) (workers : Nat)
    (schedule : List (Nat × Pool.Action)) : Pool.State Event (Except Error LoweredBlock) :=
  (Pool.State.start blocks.length workers).run (t.lowerJob blocks) schedule

/-- What a pool answers for blocks when its workers have stopped. -/
def answer (blocks : List (List Instruction)) (workers : Nat)
    (s : Pool.State Event (Except Error LoweredBlock)) :
    Traced (List (Except Error LoweredBlock)) :=
  ⟨.poolStarted blocks.length workers :: s.events,
    (s.collect blocks.length).mapError .neverLowered⟩

/-- Lowers the blocks with the given number of workers, once the tables of operations
have been looked through. -/
def lowerBlocks (t : Target) (blocks : List (List Instruction)) (requested : Nat) :
    Traced (List (Except Error LoweredBlock)) := do
  Traced.ofExcept Opcode.checkTables
  let workers := workerCount requested blocks.length
  answer blocks workers (t.poolAfter blocks workers (Pool.inTurn blocks.length workers))

end TwoAddress.Target
