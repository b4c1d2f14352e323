/-
# `Metrics` — counters as text

The counters of a run are the sums of what its events count. They are written
in the exposition format of Prometheus: for each name a line with its type, and
under it the values. A counter that no event has touched has no line at all;
one touched with zero has. In which order the lines come is not part of the
format, and nothing is to be read off it.
-/
import TwoAddress.Event

namespace TwoAddress

namespace Counter

/-- The name under which a counter is written. -/
def name : Counter → String
  | blocks => "lowerforge_blocks_total"
  | instructions => "lowerforge_instructions_emitted_total"
  | fusions => "lowerforge_lea_fusions_total"
  | carryViolations => "lowerforge_carry_chain_violations_total"
  | errors _ => "lowerforge_errors_total"

/-- What tells the counters of one name apart. -/
def labels : Counter → String
  | errors label => "\x7bkind=\"" ++ label ++ "\"\x7d"
  | _ => ""

end Counter

/-- The counters that have been touched. They are kept in the order of the first touch,
which is a choice made here: the exporter that they stand for keeps them in no fixed
order. -/
structure Metrics where
  values : List (Counter × Nat)
deriving DecidableEq, Repr

namespace Metrics

def empty : Metrics := ⟨[]⟩

def add (m : Metrics) (c : Counter) (n : Nat) : Metrics :=
  match m.values.lookup c with
  | none => ⟨m.values ++ [(c, n)]⟩
  | some _ => ⟨m.values.map fun entry => if entry.1 = c then (c, entry.2 + n) else entry⟩

/-- The counters after a list of events. -/
def ofEvents (events : List Event) : Metrics :=
  (events.flatMap Event.counts).foldl (fun m count => m.add count.1 count.2) empty

def names (m : Metrics) : List String :=
  (m.values.map (·.1.name)).eraseDups

/-- The lines of the counters, name by name in the order in which they are kept. The
exporter's order of names, and of the labels under a name, is not fixed, and it leaves
a blank line behind each name, which is left out here. -/
def lines (m : Metrics) : List String :=
  m.names.flatMap fun name =>
    let ofName := m.values.filter (·.1.name == name)
    s!"# TYPE {name} counter" :: ofName.map fun entry =>
      s!"{name}{entry.1.labels} {entry.2}"

end Metrics

end TwoAddress
