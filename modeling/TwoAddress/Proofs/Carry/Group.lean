/-
# `Proofs.Carry.Group` — one group of lowered code before the tracker

A link is lowered to a group in which one instruction does its work and the
others are copies (`LinkGroup`, `lower_link`). That fixes where the mark of the
link goes, and so everything that the tracker can answer to the group. The
answers are listed one lemma each: a group that is no link passes unless it
destroys a pending carry (`passGroup_quiet`, `passGroup_clobbered`), and the
group of a link is judged by the pending carry and its own length alone
(`passGroup_produce`, `passGroup_noProducer`, `passGroup_consume`,
`passGroup_wrongFamily`, `passGroup_prepared`).
-/
import TwoAddress.Lowering
import TwoAddress.Proofs.Carry.Chain
import TwoAddress.Proofs.Lowering.Strategy

namespace TwoAddress

/-- The items of lowered code that a group at place `origin` makes. -/
def Lowered.ofGroup (origin : Nat) (group : List Instruction) : List Lowered :=
  group.map fun g => ⟨g, decide g.Inert, origin⟩

namespace Carry

/-! ## The groups of links -/

/-- The instruction of a group that does the link's work. -/
def Link.workerIn (l : Link) (group : List Instruction) : Option Instruction :=
  group.find? l.worksIn

/-- A group that does the work of `l` in its instruction `w`. Only what reads a
carry may have its result moved afterwards. -/
inductive LinkGroup (l : Link) : List Instruction → Instruction → Prop
  | alone {w : Instruction} : l.worksIn w = true → LinkGroup l [w] w
  | afterCopy {w : Instruction} {d s : Operand} : l.worksIn w = true →
      LinkGroup l [.binary .mov d s, w] w
  | betweenCopies {w : Instruction} {d s d' s' : Operand} : l.role = .consume →
      l.worksIn w = true → LinkGroup l [.binary .mov d s, w, .binary .mov d' s'] w

theorem Link.opcode_plain (l : Link) : l.opcode ≠ .lea ∧ l.opcode ≠ .mov ∧
    l.opcode.toUnary? = none := by
  rcases l with ⟨_ | _, _ | _⟩ <;> decide

theorem Link.opcode_of_consume {l : Link} (h : l.role = .consume) :
    l.opcode ≠ .add ∧ l.opcode ≠ .sub := by
  rcases l with ⟨_ | _, _ | _⟩
  · exact nomatch h
  · exact nomatch h
  · decide
  · decide

theorem Link.worksIn_opcode (l : Link) (dst src : Operand) :
    l.worksIn (.binary l.opcode dst src) = true := by
  simp [worksIn]

theorem Link.worksIn_iff {l : Link} {g : Instruction} :
    l.worksIn g = true ↔ ∃ d s, g = .binary l.opcode d s := by
  cases g <;> simp [worksIn]

theorem Link.worksIn_mov (l : Link) (d s : Operand) : l.worksIn (.binary .mov d s) = false := by
  simpa [worksIn] using l.opcode_plain.2.1.symm

theorem not_inert_mov (d s : Operand) : ¬ (Instruction.binary .mov d s).Inert := by
  intro h
  have hp := Instruction.preservesCarry_iff.mpr h
  exact Bool.noConfusion hp

theorem linkGroup_operation {t : Target} {ins : Instruction} {group : List Instruction}
    {l : Link} {dst src : Operand} (h : t.operation ins l.opcode dst src = .ok group) :
    ∃ w, LinkGroup l group w := by
  rcases Target.operation_eq_ok_iff.mp h with ⟨_, rfl⟩ | ⟨_, _, _, s, _, _, rfl⟩
  · exact ⟨_, .alone (l.worksIn_opcode dst src)⟩
  · exact ⟨_, .afterCopy (l.worksIn_opcode dst (.reg s))⟩

theorem sumAddress?_of_consume {l : Link} (h : l.role = .consume) (a b : Operand) :
    sumAddress? l.opcode a b = none := by
  obtain ⟨hadd, hsub⟩ := Link.opcode_of_consume h
  cases a <;> cases b <;> simp [sumAddress?, hadd, hsub]

/-- The group of a link does its work in one instruction. -/
theorem lower_link {t : Target} {ins : Instruction} {l : Link} {group : List Instruction}
    (hl : Link.of? ins = some l) (h : t.lower ins = .ok group) : ∃ w, LinkGroup l group w := by
  cases ins with
  | nullary op => exact nomatch hl
  | unary op dst => exact nomatch hl
  | quaternary op dst base index scale => exact nomatch hl
  | binary op dst src =>
      obtain rfl := Link.ofOpcode?_eq_some_iff.mp hl
      obtain ⟨hlea, _, hun⟩ := l.opcode_plain
      obtain ⟨_, hgroup⟩ := Target.lower_binary h
      cases hgroup with
      | address hop _ _ _ _ => exact absurd hop hlea
      | inPlace hu _ => exact nomatch hun.symm.trans hu
      | copied hu _ => exact nomatch hun.symm.trans hu
      | operated _ _ hg => exact linkGroup_operation hg
  | ternary op3 dst a b =>
      obtain ⟨hop, hc⟩ := Link.of?_ternary hl
      obtain ⟨op, plan, hop', _, hj, he⟩ := Target.lower_ternary h
      obtain rfl := Option.some.inj (hop.symm.trans hop')
      cases hj with
      | reuse _ => exact linkGroup_operation he
      | commute _ _ _ => exact linkGroup_operation he
      -- what reads a carry is no sum with an address, and no `SUB`
      | fuse _ hf => simp [Target.fusion?, sumAddress?_of_consume hc] at hf
      | negateAdd _ hsub _ => exact absurd hsub (Link.opcode_of_consume hc).2
      | commuteMove _ _ _ =>
          cases he
          exact ⟨_, .afterCopy (l.worksIn_opcode dst a)⟩
      | moveOperate _ _ =>
          cases he
          exact ⟨_, .afterCopy (l.worksIn_opcode dst b)⟩
      | viaScratch _ =>
          obtain ⟨s, _, hs⟩ := bind_eq_ok_iff.mp he
          cases hs
          exact ⟨_, .betweenCopies hc (l.worksIn_opcode (.reg s) b)⟩

theorem LinkGroup.workerIn {l : Link} {group : List Instruction} {w : Instruction}
    (h : LinkGroup l group w) : l.workerIn group = some w := by
  cases h with
  | alone hw => simp [Link.workerIn, hw]
  | afterCopy hw => simp [Link.workerIn, l.worksIn_mov, hw]
  | betweenCopies _ hw => simp [Link.workerIn, l.worksIn_mov, hw]

theorem LinkGroup.marked {l : Link} {ins w : Instruction} {group : List Instruction}
    (hl : Link.of? ins = some l) (h : LinkGroup l group w) :
    marked ins group = group.map fun g => (g, if l.worksIn g then some l else none) := by
  cases h with
  | alone hw => simp [Carry.marked, hl, markLink, hw]
  | afterCopy hw => simp [Carry.marked, hl, markLink, l.worksIn_mov, hw]
  | betweenCopies _ hw => simp [Carry.marked, hl, markLink, l.worksIn_mov, hw]

theorem marked_of_none {ins : Instruction} {group : List Instruction}
    (hl : Link.of? ins = none) : marked ins group = group.map (·, none) := by
  rw [marked, hl]

/-! ## What the tracker answers to one instruction -/

namespace Tracker

variable {tracker next : Tracker} {origin : Nat} {g : Instruction} {needed : Bool} {p : Pending}

theorem observe_idle (h : tracker.pending = none) :
    tracker.observe origin g none needed = .ok tracker := by
  simp [observe, h]

theorem observe_inert (h : g.Inert) : tracker.observe origin g none needed = .ok tracker := by
  have hp := Instruction.preservesCarry_iff.mpr h
  cases hpend : tracker.pending <;> simp [observe, hpend, hp]

theorem observe_clobber (h : tracker.pending = some p) (hg : ¬ g.Inert) :
    tracker.observe origin g none needed =
      .error ⟨some p.producer, origin, .clobbered g p.source⟩ := by
  have hp : g.preservesCarry = false := by
    rw [Instruction.preservesCarry_eq_decide, decide_eq_false hg]
  simp [observe, h, hp]

theorem observe_produce {l : Link} (hl : l.role = .produce) (h : tracker.pending = none) :
    tracker.observe origin g (some l) needed = .ok (afterLink origin l.family g needed) := by
  obtain ⟨role, family⟩ := l
  obtain rfl : role = .produce := hl
  simp [observe, h]

theorem observe_noProducer {l : Link} (hl : l.role = .consume) (h : tracker.pending = none) :
    tracker.observe origin g (some l) needed = .error ⟨none, origin, .noProducer g⟩ := by
  obtain ⟨role, family⟩ := l
  obtain rfl : role = .consume := hl
  simp [observe, h]

theorem observe_consume {l : Link} (hl : l.role = .consume) (h : tracker.pending = some p)
    (hf : p.family = l.family) :
    tracker.observe origin g (some l) needed = .ok (afterLink origin l.family g needed) := by
  obtain ⟨role, family⟩ := l
  obtain rfl : role = .consume := hl
  simp [observe, h, hf]

theorem observe_wrongFamily {l : Link} (hl : l.role = .consume) (h : tracker.pending = some p)
    (hf : p.family ≠ l.family) :
    tracker.observe origin g (some l) needed =
      .error ⟨some p.producer, origin, .wrongFamily g p.family p.source⟩ := by
  obtain ⟨role, family⟩ := l
  obtain rfl : role = .consume := hl
  simp [observe, h, hf]

/-! ## What it answers to a group -/

variable {items : List (Instruction × Option Link)} {link : Option Link}

theorem outcome_pass (tracker : Tracker) (origin : Nat) (g : Instruction) (link : Option Link)
    (needed : Bool) :
    (tracker.pass origin g link needed).outcome =
      (tracker.observe origin g link needed).mapError .carry := by
  rw [pass]
  cases tracker.observe origin g link needed <;> rfl

theorem passGroup_cons_error {b : Break} (h : tracker.observe origin g link needed = .error b) :
    (passGroup origin needed tracker ((g, link) :: items)).outcome = .error (.carry b) := by
  simp only [passGroup, Traced.outcome_bind, outcome_pass, h]
  rfl

theorem passGroup_cons_ok (h : tracker.observe origin g link needed = .ok next) :
    (passGroup origin needed tracker ((g, link) :: items)).outcome =
      (passGroup origin needed next items).outcome.map
        fun x => (x.1, ⟨g, decide g.Inert, origin⟩ :: x.2) := by
  simp only [passGroup, Traced.outcome_bind, outcome_pass, h, Traced.outcome_note,
    Instruction.preservesCarry_eq_decide]
  show (passGroup origin needed next items).outcome >>= _ = _
  cases (passGroup origin needed next items).outcome <;> rfl

/-- A group that is no link passes when nothing is pending, and also when it
leaves the carry alone throughout. -/
theorem passGroup_quiet {group : List Instruction}
    (h : tracker.pending = none ∨ ∀ g ∈ group, g.Inert) :
    (passGroup origin needed tracker (group.map (·, none))).outcome =
      .ok (tracker, Lowered.ofGroup origin group) := by
  induction group with
  | nil => rfl
  | cons g rest ih =>
      have hhead : tracker.observe origin g none needed = .ok tracker := by
        rcases h with h | h
        · exact observe_idle h
        · exact observe_inert (h g List.mem_cons_self)
      have htail : tracker.pending = none ∨ ∀ g ∈ rest, g.Inert :=
        h.imp_right fun hall x hx => hall x (List.mem_cons_of_mem g hx)
      rw [List.map_cons, passGroup_cons_ok hhead, ih htail]
      rfl

theorem passGroup_clobbered {group : List Instruction} (hp : tracker.pending = some p)
    (hg : group.find? (fun x => !decide x.Inert) = some g) :
    (passGroup origin needed tracker (group.map (·, none))).outcome =
      .error (.carry ⟨some p.producer, origin, .clobbered g p.source⟩) := by
  induction group with
  | nil => exact nomatch hg
  | cons x rest ih =>
      rw [List.map_cons]
      by_cases hx : x.Inert
      · have hrest : rest.find? (fun x => !decide x.Inert) = some g := by
          simpa [List.find?_cons, hx] using hg
        rw [passGroup_cons_ok (observe_inert hx), ih hrest]
        rfl
      · obtain rfl : x = g := by simpa [List.find?_cons, hx] using hg
        exact passGroup_cons_error (observe_clobber hp hx)

section LinkGroups

variable {l : Link} {ins w m : Instruction} {group : List Instruction}

theorem passGroup_produce (hl : Link.of? ins = some l) (hrole : l.role = .produce)
    (hg : LinkGroup l group w) (hp : tracker.pending = none) :
    (passGroup origin needed tracker (marked ins group)).outcome =
      .ok (afterLink origin l.family w needed, Lowered.ofGroup origin group) := by
  rw [hg.marked hl]
  cases hg with
  | alone hw =>
      simp only [List.map_cons, List.map_nil, hw, if_true]
      rw [passGroup_cons_ok (observe_produce hrole hp)]
      rfl
  | afterCopy hw =>
      simp only [List.map_cons, List.map_nil, hw, l.worksIn_mov, if_true]
      rw [if_neg Bool.false_ne_true, passGroup_cons_ok (observe_idle hp),
        passGroup_cons_ok (observe_produce hrole hp)]
      rfl
  | betweenCopies hc _ => exact Role.noConfusion (hrole.symm.trans hc)

theorem passGroup_noProducer (hl : Link.of? ins = some l) (hrole : l.role = .consume)
    (hg : LinkGroup l group w) (hp : tracker.pending = none) :
    (passGroup origin needed tracker (marked ins group)).outcome =
      .error (.carry ⟨none, origin, .noProducer w⟩) := by
  rw [hg.marked hl]
  cases hg with
  | alone hw =>
      simp only [List.map_cons, List.map_nil, hw, if_true]
      exact passGroup_cons_error (observe_noProducer hrole hp)
  | afterCopy hw =>
      simp only [List.map_cons, List.map_nil, hw, l.worksIn_mov, if_true]
      rw [if_neg Bool.false_ne_true, passGroup_cons_ok (observe_idle hp),
        passGroup_cons_error (observe_noProducer hrole hp)]
      rfl
  | betweenCopies _ hw =>
      simp only [List.map_cons, List.map_nil, hw, l.worksIn_mov, if_true]
      rw [if_neg Bool.false_ne_true, passGroup_cons_ok (observe_idle hp),
        passGroup_cons_error (observe_noProducer hrole hp)]
      rfl

theorem marked_alone (hl : Link.of? ins = some l) (hg : LinkGroup l [w] w) :
    marked ins [w] = [(w, some l)] := by
  rw [hg.marked hl]
  cases hg with
  | alone hw => simp [hw]

theorem passGroup_consume (hl : Link.of? ins = some l) (hrole : l.role = .consume)
    (hg : LinkGroup l [w] w) (hp : tracker.pending = some p) (hf : p.family = l.family) :
    (passGroup origin needed tracker (marked ins [w])).outcome =
      .ok (afterLink origin l.family w needed, Lowered.ofGroup origin [w]) := by
  rw [marked_alone hl hg, passGroup_cons_ok (observe_consume hrole hp hf)]
  rfl

theorem passGroup_wrongFamily (hl : Link.of? ins = some l) (hrole : l.role = .consume)
    (hg : LinkGroup l [w] w) (hp : tracker.pending = some p) (hf : p.family ≠ l.family) :
    (passGroup origin needed tracker (marked ins [w])).outcome =
      .error (.carry ⟨some p.producer, origin, .wrongFamily w p.family p.source⟩) := by
  rw [marked_alone hl hg]
  exact passGroup_cons_error (observe_wrongFamily hrole hp hf)

/-- A longer group begins with a copy, which destroys what the link is to
read. -/
theorem passGroup_prepared {rest : List Instruction} (hl : Link.of? ins = some l)
    (hg : LinkGroup l (m :: rest) w) (hrest : rest ≠ []) (hp : tracker.pending = some p) :
    (passGroup origin needed tracker (marked ins (m :: rest))).outcome =
      .error (.carry ⟨some p.producer, origin, .clobbered m p.source⟩) := by
  rw [hg.marked hl]
  cases hg with
  | alone _ => exact absurd rfl hrest
  | afterCopy _ =>
      rw [List.map_cons, l.worksIn_mov]
      exact passGroup_cons_error (observe_clobber hp (not_inert_mov _ _))
  | betweenCopies _ _ =>
      rw [List.map_cons, l.worksIn_mov]
      exact passGroup_cons_error (observe_clobber hp (not_inert_mov _ _))

end LinkGroups

end Tracker

end Carry

end TwoAddress
