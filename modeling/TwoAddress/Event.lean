/-
# `Event` — what happens while code is lowered

Lowering reports its progress as a list of events. Everything that is logged
and everything that is counted is read off that list: `Event.entry?` is the log
entry of an event, `Event.counts` what it adds to the counters.
-/
import TwoAddress.Plan

namespace TwoAddress

/-- How much an event matters. -/
inductive Level where
  | error
  | warn
  | info
  | debug
  | trace
deriving DecidableEq, Repr

def Level.name : Level → String
  | error => "ERROR"
  | warn => "WARN"
  | info => "INFO"
  | debug => "DEBUG"
  | trace => "TRACE"

/-- Levels from zero, the one that matters most. -/
def Level.rank : Level → Nat
  | error => 0
  | warn => 1
  | info => 2
  | debug => 3
  | trace => 4

/-- What is counted. Errors are counted apart for each label. -/
inductive Counter where
  | blocks
  | instructions
  | fusions
  | carryViolations
  | errors (label : String)
deriving DecidableEq, Repr

/-- Something that happens while code is lowered. -/
inductive Event where
  /-- An instruction has its plan. -/
  | planned (ins : Instruction) (plan : Plan)
  | emitted (origin : Nat) (ins : Instruction)
  | chainBroken (b : Carry.Break)
  /-- A block of `read` instructions has become one of `written`. -/
  | blockLowered (read written : Nat)
  | blockRefused (e : Error)
  | poolStarted (blocks workers : Nat)
  | jobFailed (worker block : Nat) (e : Error)
  | targetRefused (file : String) (e : Error)
  | listingUnreadable (file reason : String)
  | listingRefused (file : String) (e : Error)
  | runStarted (blocks : Nat) (target : String)
  | runFailed (e : Error)
  /-- The run is at its end, and this block is not in its output. -/
  | blockMissing (block : Nat) (e : Error)
deriving DecidableEq, Repr

/-- A file name in quotation marks. -/
def quotedName (file : String) : String :=
  let escape c := if c = '"' ∨ c = '\\' then ['\\', c] else [c]
  String.ofList ('"' :: file.toList.flatMap escape ++ ['"'])

namespace Event

/-- The log entry of an event, if it is logged. -/
def entry? : Event → Option (Level × String)
  | planned ins plan => plan.note?.map fun note => (.debug, s!"{ins}: {note}")
  | emitted origin ins => some (.trace, s!"#{origin} -> {ins}")
  | chainBroken b =>
      some (.warn, s!"carry chain broken at #{b.offender}: {b.cause.message}")
  | blockLowered read written =>
      some (.debug, s!"lowered block of {read} instructions into {written}")
  | blockRefused _ => none
  | poolStarted blocks workers =>
      some (.debug, s!"lowering {blocks} blocks on {workers} workers")
  | jobFailed worker block e =>
      some (.debug, s!"worker {worker}: block {block} failed: {e.message}")
  | targetRefused file e =>
      some (.error, s!"Failed to load target {quotedName file}: {e.message}")
  | listingUnreadable file reason =>
      some (.error, s!"Failed to read {quotedName file}: {reason}")
  | listingRefused file e => some (.error, s!"{quotedName file}: {e.message}")
  | runStarted blocks target =>
      some (.info, s!"Lowering {blocks} blocks for target {target}")
  | runFailed e => some (.error, e.message)
  | blockMissing block e =>
      let fault := if e.heading.isEngineFault then " (lowering engine fault)" else ""
      some (.error, s!"block {block}: {e.message}{fault}")

/-- What an event adds to which counters. -/
def counts : Event → List (Counter × Nat)
  | planned _ (.fuse ..) => [(.fusions, 1)]
  | chainBroken _ => [(.carryViolations, 1)]
  | blockLowered _ written => [(.blocks, 1), (.instructions, written)]
  | blockRefused e => [(.errors e.label, 1)]
  | _ => []

end Event

/-- The log of the events down to a level. -/
def logOf (least : Level) (events : List Event) : List (Level × String) :=
  (events.filterMap Event.entry?).filter fun entry => entry.1.rank ≤ least.rank

end TwoAddress
