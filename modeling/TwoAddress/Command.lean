/-
# `Command` — what a run of the command does

A run lowers the blocks of one listing for one target. Here it is a function of
its options and of the contents of its files; reading the files and writing the
result is left to `Main`.

A run that cannot begin, for lack of a target or of blocks, says why in its log
and prints nothing. Once it has begun it goes to the end: a block that is
refused is reported, leaves a mark in the output at its place, and makes the run
as a whole a failure.
-/
import TwoAddress.Codec.Block
import TwoAddress.Codec.Descriptor
import TwoAddress.Lowering.Blocks
import TwoAddress.Metrics
import TwoAddress.Text.Terminal

namespace TwoAddress.Command

/-- The form in which lowered code is printed. -/
inductive Format where
  | listing
  | json
deriving DecidableEq, Repr

/-- What a run is asked to do. -/
structure Options where
  /-- The file with the blocks. -/
  listing : String
  /-- The file with the target; without one it is `Target.amd64`. -/
  target : Option String
  workers : Nat
  format : Format
  /-- Whether the counters are printed too. -/
  metrics : Bool
  /-- How often a more talkative log was asked for. -/
  verbosity : Nat
deriving DecidableEq, Repr

/-- The contents of a file, or why there are none. -/
abbrev Contents := Except String (List Char)

/-- What comes of a run. -/
structure Result where
  success : Bool
  /-- What is printed, apart from the counters. -/
  output : List Char
  /-- The lines of the counters, if they are printed. -/
  metrics : List String
  events : List Event

def leastLevel (verbosity : Nat) : Level :=
  match verbosity with
  | 0 => .warn
  | 1 => .debug
  | _ => .trace

/-! ## Output -/

/-- An instruction of lowered code as it is listed. -/
def itemLine (x : Lowered) : List Char :=
  x.instruction.render ++ if x.flagPreserving then "  ; flags kept".toList else []

/-- The lines of a block, or of the mark in its place. -/
def blockLines (n : Nat) : Option LoweredBlock → List (List Char)
  | some b => b.items.map itemLine
  | none => [s!"# block {n} failed".toList]

/-- The lines of blocks, each with its number, with a separator between any
two. -/
def listingLines : List (Option LoweredBlock × Nat) → List (List Char)
  | [] => []
  | [(b, n)] => blockLines n b
  | (b, n) :: rest => blockLines n b ++ Assembly.separator :: listingLines rest

/-- Lowered code as it is printed. -/
def render : Format → List (Option LoweredBlock) → List Char
  | .listing, blocks => Text.unlines (listingLines blocks.zipIdx)
  | .json, blocks => (LoweredBlock.allToJson blocks).pretty ++ ['\n']

/-! ## A run -/

/-- The code of a block that has been lowered. -/
def lowered? : Except Error LoweredBlock → Option LoweredBlock
  | .ok b => some b
  | .error _ => none

/-- A report for each block that has been refused. -/
def missing (results : List (Except Error LoweredBlock)) : List Event :=
  results.zipIdx.filterMap fun
    | (.ok _, _) => none
    | (.error e, n) => some (.blockMissing n e)

def failed (events : List Event) : Result :=
  ⟨false, [], [], events⟩

/-- The end of a run, given what has come of lowering its blocks. -/
def conclude (o : Options) (t : Target) (blocks : List (List Instruction))
    (lowering : Traced (List (Except Error LoweredBlock))) : Result :=
  let events := .runStarted blocks.length t.name :: lowering.events
  match lowering.outcome with
  | .error e => failed (events ++ [.runFailed e])
  | .ok results =>
      let events := events ++ missing results
      { success := (missing results).isEmpty
        output := render o.format (results.map lowered?)
        metrics := if o.metrics then (Metrics.ofEvents events).lines else []
        events := events }

/-- A run that lowers blocks for a target. -/
def lowerAll (o : Options) (t : Target) (blocks : List (List Instruction)) : Result :=
  conclude o t blocks (t.lowerBlocks blocks o.workers)

def loadTarget (file : Contents) : Except Error Target :=
  match file with
  | .ok text => Target.ofText text
  | .error reason => .error (.file reason)

/-- A run that lowers the listing in a file for a target. -/
def runFor (o : Options) (t : Target) (listing : Contents) : Result :=
  match listing with
  | .error reason => failed [.listingUnreadable o.listing reason]
  | .ok source =>
      match Assembly.blocks source with
      | .error fault => failed [.listingRefused o.listing (.listing fault)]
      | .ok blocks => lowerAll o t blocks

/-- A run, given the contents of the file with the target, if one is named, and
of the file with the listing. -/
def run (o : Options) (target listing : Contents) : Result :=
  match o.target with
  | none => runFor o .amd64 listing
  | some file =>
      match loadTarget target with
      | .error e => failed [.targetRefused file e]
      | .ok t => runFor o t listing

/-- Everything that a run writes to its standard output: the counters come behind the
code. -/
def Result.printed (r : Result) : List Char :=
  r.output ++ Text.unlines (r.metrics.map String.toList)

def Result.log (r : Result) (verbosity : Nat) : List (Level × String) :=
  (logOf (leastLevel verbosity) r.events).map fun entry => (entry.1, Text.showSafe entry.2)

/-! ## Arguments -/

def Options.default : Options :=
  ⟨"", none, 1, .listing, false, 0⟩

/-- Reads arguments into options, `given` telling whether a listing has been
named. -/
def Options.readArgs (o : Options) (given : Bool) : List String → Except String Options
  | [] => if given then .ok o else .error "no listing given"
  | "--json" :: rest => { o with format := .json }.readArgs given rest
  | "--metrics" :: rest => { o with metrics := true }.readArgs given rest
  | "-v" :: rest | "--verbose" :: rest =>
      { o with verbosity := o.verbosity + 1 }.readArgs given rest
  | "-vv" :: rest => { o with verbosity := o.verbosity + 2 }.readArgs given rest
  | "-t" :: file :: rest | "--target" :: file :: rest =>
      { o with target := some file }.readArgs given rest
  | "-w" :: n :: rest | "--workers" :: n :: rest =>
      match Numeral.natural? 10 n.toList with
      | some n => { o with workers := n }.readArgs given rest
      | none => .error s!"not a number of workers: {n}"
  | arg :: rest =>
      if arg.startsWith "-" ∨ given then .error s!"unexpected argument: {arg}"
      else { o with listing := arg }.readArgs true rest

def usage : String :=
  "usage: LISTING [-t TARGET] [-w WORKERS] [--json] [--metrics] [-v]"

end TwoAddress.Command
