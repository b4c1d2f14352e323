/-
# `Carry.Tracker` — following one carry through emitted code

While code is emitted the tracker knows whether the carry holds something that
a later link reads, and who left it. It refuses an instruction that would
destroy such a carry, and a link that reads a carry nobody left for it. A
refused instruction leaves the tracker as it was.
-/
import TwoAddress.Carry.Link
import TwoAddress.Assembly.Printer

namespace TwoAddress.Carry

/-- A carry that a later link reads. -/
structure Pending where
  /-- Where in the input the instruction stands that left the carry. -/
  producer : Nat
  family : Family
  /-- The emitted instruction that left the carry. -/
  source : Instruction
deriving DecidableEq, Repr

/-- What goes wrong in a broken chain. -/
inductive Cause where
  | clobbered (ins source : Instruction)
  | overwritten (ins source : Instruction)
  | noProducer (ins : Instruction)
  | wrongFamily (ins : Instruction) (family : Family) (source : Instruction)
  | neverConsumed (source : Instruction)
deriving DecidableEq, Repr

/-- A break in a chain: who left the carry, who spoils it, and how. -/
structure Break where
  producer : Option Nat
  offender : Nat
  cause : Cause
deriving DecidableEq, Repr

def Family.name : Family → String
  | .add => "Add"
  | .sub => "Sub"

def Cause.message : Cause → String
  | clobbered ins source => s!"{ins} clobbers the carry left by {source}"
  | overwritten ins source => s!"{ins} overwrites the carry left by {source}"
  | noProducer ins => s!"{ins} has no carry producer in this block"
  | wrongFamily ins family source =>
      s!"{ins} cannot consume the {family.name} carry left by {source}"
  | neverConsumed source => s!"carry left by {source} is never consumed"

/-- What is known of the carry between two emitted instructions. -/
structure Tracker where
  pending : Option Pending
deriving DecidableEq, Repr

namespace Tracker

/-- Nothing is known, and nothing needed. -/
def start : Tracker := ⟨none⟩

def isArmed (t : Tracker) : Bool :=
  t.pending.isSome

/-- After a link: its carry is pending if a later link reads it. -/
def afterLink (origin : Nat) (family : Family) (ins : Instruction) (needed : Bool) : Tracker :=
  ⟨if needed then some ⟨origin, family, ins⟩ else none⟩

/-- Passes one emitted instruction. `origin` is the place in the input that it
comes from, `link` the link whose work it does, if any, and `needed` tells
whether a later link reads the carry that it leaves. -/
def observe (t : Tracker) (origin : Nat) (ins : Instruction) (link : Option Link)
    (needed : Bool) : Except Break Tracker :=
  match link, t.pending with
  | none, none => .ok t
  | none, some p =>
      if ins.preservesCarry then .ok t
      else .error ⟨some p.producer, origin, .clobbered ins p.source⟩
  | some ⟨.produce, family⟩, none => .ok (afterLink origin family ins needed)
  | some ⟨.produce, _⟩, some p =>
      .error ⟨some p.producer, origin, .overwritten ins p.source⟩
  | some ⟨.consume, _⟩, none => .error ⟨none, origin, .noProducer ins⟩
  | some ⟨.consume, family⟩, some p =>
      if p.family = family then .ok (afterLink origin family ins needed)
      else .error ⟨some p.producer, origin, .wrongFamily ins p.family p.source⟩

/-- Ends a block, where no carry may be left pending. -/
def finish (t : Tracker) : Except Break Unit :=
  match t.pending with
  | none => .ok ()
  | some p => .error ⟨some p.producer, p.producer, .neverConsumed p.source⟩

end Tracker

end TwoAddress.Carry
