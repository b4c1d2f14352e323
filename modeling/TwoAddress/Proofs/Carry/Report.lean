/-
# `Proofs.Carry.Report` — broken chains are reported as they are returned

A break has two ways out of lowering: as an event, for the log and the
counters, and as the error of the block. `Traced.Faithful` says of a
computation that the two agree, and it is kept by putting computations
together. `lowerBlockTraced_faithful` is what the later modules use: a block
reports a break exactly if that is its error, and then just once.
-/
import TwoAddress.Lowering
import TwoAddress.Proofs.Lowering.Strategy

namespace TwoAddress

/-- The break that an error reports. -/
def Error.break? : Error → Option Carry.Break
  | carry b => some b
  | _ => none

theorem Error.break?_eq_some_iff {e : Error} {b : Carry.Break} :
    e.break? = some b ↔ e = .carry b := by
  cases e <;> simp [break?]

def Event.break? : Event → Option Carry.Break
  | chainBroken b => some b
  | _ => none

/-! ## Lowering one instruction -/

/-- What fails in `x` is not a chain. -/
def Chainless {α : Type} (x : Except Error α) : Prop :=
  ∀ e, x = .error e → e.break? = none

theorem chainless_ok {α : Type} (a : α) : Chainless (.ok a) :=
  fun _ h => nomatch h

theorem chainless_error {α : Type} {e : Error} (h : e.break? = none) :
    Chainless (.error e : Except Error α) := by
  intro e' he
  cases he
  exact h

theorem Chainless.bind {α β : Type} {x : Except Error α} {f : α → Except Error β}
    (hx : Chainless x) (hf : ∀ a, Chainless (f a)) : Chainless (x >>= f) := by
  intro e he
  rcases bind_eq_error_iff.mp he with h | ⟨a, _, h⟩
  · exact hx e h
  · exact hf a e h

theorem Chainless.map {α β : Type} {x : Except Error α} {f : α → β} (hx : Chainless x) :
    Chainless (f <$> x) := by
  cases x with
  | error e => exact chainless_error (hx e rfl)
  | ok a => exact chainless_ok (f a)

theorem chainless_check (mode : AddressingMode) (a : Address) : Chainless (mode.check a) := by
  rw [AddressingMode.check]
  split
  · exact chainless_ok ()
  · exact chainless_error rfl

namespace Target

theorem chainless_scaleOf (mode : AddressingMode) (ins : Instruction) (o : Operand) :
    Chainless (scaleOf mode ins o) := by
  cases o with
  | imm s =>
      simp only [scaleOf]
      split
      · exact chainless_ok _
      · exact chainless_error rfl
  | reg r => exact chainless_error rfl
  | mem a => exact chainless_error rfl

theorem chainless_dispOf (ins : Instruction) (d : Int) : Chainless (dispOf ins d) := by
  rw [dispOf]
  split
  · exact chainless_ok _
  · exact chainless_error rfl

theorem chainless_baseOf (ins : Instruction) (o : Operand) : Chainless (baseOf ins o) := by
  cases o with
  | reg r => exact chainless_ok _
  | mem a =>
      simp only [baseOf]
      split
      · exact chainless_ok _
      · exact chainless_error rfl
  | imm k => exact (chainless_dispOf ins _).map

theorem chainless_addIndex (ins : Instruction) (base : Address) (scale : UInt8) (o : Operand) :
    Chainless (addIndex ins base scale o) := by
  cases o with
  | reg r => exact chainless_ok _
  | mem a => exact chainless_error rfl
  | imm k => exact (chainless_dispOf ins _).map

theorem chainless_planScaled (mode : AddressingMode) (ins : Instruction) (op : Opcode .binary)
    (dst base index scale : Operand) : Chainless (planScaled mode ins op dst base index scale) := by
  cases dst with
  | imm k => exact chainless_error rfl
  | mem a => exact chainless_error rfl
  | reg d =>
      refine (chainless_scaleOf mode ins scale).bind ?_
      intro s
      refine (chainless_baseOf ins base).bind ?_
      intro b
      refine (chainless_addIndex ins b s index).bind ?_
      intro sum
      exact (chainless_check mode sum).bind fun _ => chainless_ok _

theorem chainless_planAddress (t : Target) (ins : Instruction) (dst src : Operand) :
    Chainless (t.planAddress ins dst src) := by
  unfold planAddress
  split
  · exact chainless_error rfl
  · exact (chainless_check _ _).bind fun _ => chainless_ok _
  · exact chainless_error rfl
  · exact chainless_error rfl

theorem chainless_plan (t : Target) (ins : Instruction) : Chainless (t.plan ins) := by
  cases ins with
  | nullary op =>
      simp only [plan]
      split
      · exact chainless_ok _
      · exact chainless_error rfl
  | unary op dst =>
      simp only [plan]
      split
      · exact chainless_error rfl
      · split
        · exact chainless_error rfl
        · exact chainless_ok _
  | binary op dst src =>
      simp only [plan, planBinary]
      split
      · exact chainless_error rfl
      · split
        · exact chainless_error rfl
        · split
          · exact t.chainless_planAddress _ dst src
          · split
            · exact chainless_ok _
            · exact chainless_ok _
  | ternary op dst a b =>
      simp only [plan]
      split
      · exact chainless_error rfl
      · split
        · exact chainless_error rfl
        · exact chainless_ok _
  | quaternary op dst base index scale =>
      simp only [plan]
      split
      · exact chainless_planScaled _ _ _ dst base index scale
      · exact chainless_error rfl

theorem chainless_scratchFor (t : Target) (ins : Instruction) : Chainless (t.scratchFor ins) := by
  rw [scratchFor]
  split
  · exact chainless_error rfl
  · split
    · exact chainless_error rfl
    · exact chainless_ok _

theorem chainless_operation (t : Target) (ins : Instruction) (op : Opcode .binary)
    (dst src : Operand) : Chainless (t.operation ins op dst src) := by
  rw [operation]
  split
  · exact (t.chainless_scratchFor ins).bind fun _ => chainless_ok _
  · exact chainless_ok _

theorem chainless_emit (t : Target) (ins : Instruction) (plan : Plan) :
    Chainless (t.emit ins plan) := by
  cases plan with
  | keep => exact chainless_ok _
  | operate op dst src => exact t.chainless_operation ins op dst src
  | unaryInPlace op dst => exact chainless_ok _
  | moveUnary op dst src =>
    exact (t.chainless_operation ins .mov dst src).bind fun _ => chainless_ok _
  | reuse op dst b => exact t.chainless_operation ins op dst b
  | fuse dst a => exact chainless_ok _
  | commute op dst a => exact t.chainless_operation ins op dst a
  | negateAdd dst a => exact (t.chainless_operation ins .add dst a).bind fun _ => chainless_ok _
  | commuteMove op dst a b => exact chainless_ok _
  | viaScratch why op dst a b => exact (t.chainless_scratchFor ins).bind fun _ => chainless_ok _
  | moveOperate op dst a b => exact chainless_ok _
  | loadAddress op dst a => exact chainless_ok _

theorem chainless_lower (t : Target) (ins : Instruction) : Chainless (t.lower ins) :=
  (t.chainless_plan ins).bind fun plan => t.chainless_emit ins plan

end Target

/-! ## Computations with events -/

namespace Traced

variable {α β : Type} {m : Traced α}

/-- The breaks that a computation reports. -/
def breaks (m : Traced α) : List Carry.Break :=
  m.events.filterMap Event.break?

/-- The break with which a computation fails. -/
def failure (m : Traced α) : Option Carry.Break :=
  match m.outcome with
  | .ok _ => none
  | .error e => e.break?

/-- What is reported is what is returned. -/
def Faithful (m : Traced α) : Prop :=
  m.breaks = m.failure.toList

theorem faithful_pure (a : α) : (pure a : Traced α).Faithful := rfl

theorem faithful_note {e : Event} (h : e.break? = none) : (note e).Faithful := by
  simp [Faithful, breaks, failure, note, h]

theorem faithful_ofExcept {x : Except Error α} (h : Chainless x) : (ofExcept x).Faithful := by
  cases x with
  | ok a => rfl
  | error e => simp [Faithful, breaks, failure, ofExcept, h e rfl]

theorem faithful_break (b : Carry.Break) :
    (⟨[.chainBroken b], .error (.carry b)⟩ : Traced α).Faithful := rfl

/-- A computation that goes on has reported nothing so far, so what is reported
in the end comes from its last part. -/
theorem Faithful.bind {f : α → Traced β} (hm : m.Faithful) (hf : ∀ a, (f a).Faithful) :
    (m >>= f).Faithful := by
  show (m.andThen f).Faithful
  cases h : m.outcome with
  | error e =>
      have hb : m.breaks = e.break?.toList := by
        rw [hm, failure, h]
      simpa [Faithful, breaks, failure, andThen, h] using hb
  | ok a =>
      have hb : m.breaks = [] := by
        rw [hm, failure, h]
        rfl
      have hlast : (f a).breaks = (f a).failure.toList := hf a
      simp only [Faithful, breaks, failure, andThen, h, List.filterMap_append] at hb hlast ⊢
      rw [hb, List.nil_append, hlast]

theorem Faithful.onFailure {event : Error → Event} (hm : m.Faithful)
    (he : ∀ e, (event e).break? = none) : (m.onFailure event).Faithful := by
  cases h : m.outcome with
  | ok a => simpa [Traced.onFailure, h] using hm
  | error e =>
      simp only [Faithful, breaks, failure, h] at hm
      simp [Faithful, breaks, failure, Traced.onFailure, h, hm, he]

end Traced

/-! ## Lowering a block -/

namespace Carry.Tracker

theorem pass_faithful (tracker : Tracker) (origin : Nat) (ins : Instruction)
    (link : Option Link) (needed : Bool) : (tracker.pass origin ins link needed).Faithful := by
  rw [pass]
  split
  · exact Traced.faithful_pure _
  · exact Traced.faithful_break _

theorem passGroup_faithful (origin : Nat) (needed : Bool) :
    ∀ (items : List (Instruction × Option Link)) (tracker : Tracker),
      (tracker.passGroup origin needed items).Faithful
  | [], tracker => Traced.faithful_pure (tracker, [])
  | (ins, link) :: rest, tracker => by
      refine (tracker.pass_faithful origin ins link needed).bind ?_
      intro next
      refine (Traced.faithful_note rfl).bind ?_
      intro _
      exact (passGroup_faithful origin needed rest next).bind fun _ => Traced.faithful_pure _

theorem close_faithful (tracker : Tracker) : tracker.close.Faithful := by
  rw [close]
  split
  · exact Traced.faithful_pure ()
  · exact Traced.faithful_break _

end Carry.Tracker

namespace Target

theorem lowerTraced_faithful (t : Target) (ins : Instruction) : (t.lowerTraced ins).Faithful := by
  refine (Traced.faithful_ofExcept (t.chainless_plan ins)).bind ?_
  intro plan
  refine (Traced.faithful_note rfl).bind ?_
  intro _
  exact Traced.faithful_ofExcept (t.chainless_emit ins plan)

theorem lowerFrom_faithful (t : Target) :
    ∀ (items : List (Instruction × Bool)) (origin : Nat) (tracker : Carry.Tracker),
      (t.lowerFrom origin tracker items).Faithful
  | [], origin, tracker => tracker.close_faithful.bind fun _ => Traced.faithful_pure _
  | (ins, needed) :: rest, origin, tracker => by
      refine (t.lowerTraced_faithful ins).bind ?_
      intro group
      refine (tracker.passGroup_faithful origin needed _).bind ?_
      intro x
      exact (t.lowerFrom_faithful rest (origin + 1) x.1).bind fun _ => Traced.faithful_pure _

/-- A block reports a break exactly if that is its error, and then once. -/
theorem lowerBlockTraced_faithful (t : Target) (block : List Instruction) :
    (t.lowerBlockTraced block).Faithful := by
  have hlength : Chainless (t.checkLength block.length) := by
    rw [Descriptor.checkLength]
    split
    · exact chainless_ok ()
    · exact chainless_error rfl
  have hwhole : (t.lowerWhole block).Faithful := by
    refine (Traced.faithful_ofExcept hlength).bind ?_
    intro _
    refine (t.lowerFrom_faithful _ 0 .start).bind ?_
    intro out
    exact (Traced.faithful_note rfl).bind fun _ => Traced.faithful_pure _
  exact hwhole.onFailure fun _ => rfl

theorem outcome_of_chainBroken {t : Target} {block : List Instruction} {b : Carry.Break}
    (h : .chainBroken b ∈ (t.lowerBlockTraced block).events) :
    t.lowerBlock block = .error (.carry b) := by
  have hmem : b ∈ (t.lowerBlockTraced block).breaks := List.mem_filterMap.mpr ⟨_, h, rfl⟩
  rw [t.lowerBlockTraced_faithful block, Option.mem_toList, Traced.failure] at hmem
  split at hmem
  case h_1 => exact nomatch hmem
  case h_2 e he =>
    rw [← Error.break?_eq_some_iff.mp hmem]
    exact he

end Target

end TwoAddress
