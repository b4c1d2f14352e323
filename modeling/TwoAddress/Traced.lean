/-
# `Traced` — computations that report events

A traced computation has an outcome, and a list of events up to the point where
it ended. The events never have a say in the outcome: `outcome` commutes with
every way of putting computations together (`outcome_pure`, `outcome_bind`), so
what is computed can be reasoned about as if nothing were traced.
-/
import TwoAddress.Event

namespace TwoAddress

/-- A computation with the events that it reports. -/
structure Traced (α : Type) where
  events : List Event
  outcome : Except Error α

namespace Traced

variable {α β : Type}

/-- Goes on with the value of a computation, if it has one. -/
def andThen (m : Traced α) (f : α → Traced β) : Traced β :=
  match m.outcome with
  | .ok a => ⟨m.events ++ (f a).events, (f a).outcome⟩
  | .error e => ⟨m.events, .error e⟩

instance : Monad Traced where
  pure a := ⟨[], .ok a⟩
  bind := andThen

def ofExcept (outcome : Except Error α) : Traced α :=
  ⟨[], outcome⟩

def note (e : Event) : Traced Unit :=
  ⟨[e], .ok ()⟩

/-- Reports one more event if the computation fails. -/
def onFailure (m : Traced α) (event : Error → Event) : Traced α :=
  match m.outcome with
  | .ok _ => m
  | .error e => ⟨m.events ++ [event e], .error e⟩

@[simp] theorem outcome_pure (a : α) : (pure a : Traced α).outcome = .ok a := rfl

@[simp] theorem outcome_bind (m : Traced α) (f : α → Traced β) :
    (m >>= f).outcome = m.outcome >>= fun a => (f a).outcome := by
  show (m.andThen f).outcome = _
  rw [andThen]
  cases m.outcome <;> rfl

@[simp] theorem outcome_ofExcept (outcome : Except Error α) :
    (ofExcept outcome).outcome = outcome := rfl

@[simp] theorem outcome_note (e : Event) : (note e).outcome = .ok () := rfl

@[simp] theorem outcome_onFailure (m : Traced α) (event : Error → Event) :
    (m.onFailure event).outcome = m.outcome := by
  rw [onFailure]
  split <;> simp_all

end Traced

end TwoAddress
