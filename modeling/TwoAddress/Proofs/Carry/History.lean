/-
# `Proofs.Carry.History` — what the tracker knows after any calls

When a block is lowered, the tracker is called in an order in which links and
groups belong together, and not again once it has refused. Here it is called in
any order with anything, and goes on after refusals.

A call is answered by `Tracker.observe`, which returns no tracker if it refuses.
On a tracker that is kept in place this could still mean that a refused call has
changed something before it failed; `Tracker.inPlace` is the call in that form,
and `inPlace_eq` says that it does not. So what the tracker holds is decided by
the accepted calls, and of these by the latest one that was a link: it stays as
that link left it (`LatestLink.held_eq`), or as it was at the start, if there was
none (`held_of_no_link`). Everything in `tracker_history` is read off from that.
-/
import TwoAddress.Carry.Tracker

namespace TwoAddress.Carry

/-- What the tracker is told in one call. -/
structure Call where
  origin : Nat
  ins : Instruction
  link : Option Link
  needed : Bool

namespace Tracker

variable {t next : Tracker} {c : Call} {e : Break}

def answer (t : Tracker) (c : Call) : Except Break Tracker :=
  t.observe c.origin c.ins c.link c.needed

/-! ## One call -/

/-- A call on a tracker that is kept in place. What it changes before it fails
stays changed. -/
def inPlace (c : Call) : ExceptT Break (StateM Tracker) Unit := do
  let pending := (← get).pending
  match c.link with
  | none =>
      if c.ins.preservesCarry then return
      if let some p := pending then
        throw ⟨some p.producer, c.origin, .clobbered c.ins p.source⟩
  | some ⟨.produce, family⟩ =>
      if let some p := pending then
        throw ⟨some p.producer, c.origin, .overwritten c.ins p.source⟩
      set (afterLink c.origin family c.ins c.needed)
  | some ⟨.consume, family⟩ =>
      match pending with
      | none => throw ⟨none, c.origin, .noProducer c.ins⟩
      | some p =>
          if p.family ≠ family then
            throw ⟨some p.producer, c.origin, .wrongFamily c.ins p.family p.source⟩
      set (afterLink c.origin family c.ins c.needed)

/-- In place, an accepted call leaves the tracker that it is answered with, and a
refused one leaves the tracker as it was. -/
theorem inPlace_eq (t : Tracker) (c : Call) :
    (inPlace c).run.run t =
      match t.answer c with
      | .ok next => (.ok (), next)
      | .error e => (.error e, t) := by
  obtain ⟨origin, ins, link, needed⟩ := c
  obtain ⟨pending⟩ := t
  cases link with
  | none =>
      cases hins : ins.preservesCarry with
      | true =>
          simp only [inPlace, answer, observe, hins]
          cases pending <;> rfl
      | false =>
          simp only [inPlace, answer, observe, hins]
          cases pending <;> rfl
  | some l =>
      obtain ⟨role, family⟩ := l
      cases role with
      | produce => cases pending <;> rfl
      | consume =>
          cases pending with
          | none => rfl
          | some p =>
              obtain ⟨producer, held, source⟩ := p
              cases held <;> cases family <;> rfl

/-- What a call that is accepted can do: it passes an instruction that is no link,
or a link, whose carry the tracker holds from then on if it is needed. -/
inductive Accepts (t : Tracker) (c : Call) : Tracker → Prop
  | quiet : c.link = none → (t.isArmed = true → c.ins.preservesCarry = true) → Accepts t c t
  | produce {family : Family} : c.link = some ⟨.produce, family⟩ → t.pending = none →
      Accepts t c (afterLink c.origin family c.ins c.needed)
  | consume {family : Family} {p : Pending} : c.link = some ⟨.consume, family⟩ →
      t.pending = some p → p.family = family →
      Accepts t c (afterLink c.origin family c.ins c.needed)

theorem accepts_of_answer (h : t.answer c = .ok next) : t.Accepts c next := by
  unfold answer observe at h
  split at h
  case h_1 hlink hp =>
    cases h
    exact .quiet hlink fun harmed => by simp [isArmed, hp] at harmed
  case h_2 p hlink hp =>
    split at h
    case isTrue hins =>
      cases h
      exact .quiet hlink fun _ => hins
    case isFalse => cases h
  case h_3 family hlink hp =>
    cases h
    exact .produce hlink hp
  case h_4 => cases h
  case h_5 => cases h
  case h_6 family p hlink hp =>
    split at h
    case isTrue hf =>
      cases h
      exact .consume hlink hp hf
    case isFalse => cases h

def afterCall (t : Tracker) (c : Call) : Tracker :=
  ((inPlace c).run.run t).2

theorem afterCall_of_ok (h : t.answer c = .ok next) : t.afterCall c = next := by
  rw [afterCall, inPlace_eq, h]

theorem afterCall_of_error (h : t.answer c = .error e) : t.afterCall c = t := by
  rw [afterCall, inPlace_eq, h]

@[simp] theorem isArmed_afterLink (origin : Nat) (family : Family) (ins : Instruction)
    (needed : Bool) : (afterLink origin family ins needed).isArmed = needed := by
  cases needed <;> rfl

theorem pending_afterLink (origin : Nat) (family : Family) (ins : Instruction) :
    (afterLink origin family ins true).pending = some ⟨origin, family, ins⟩ := rfl

theorem isArmed_of_pending {p : Pending} (h : t.pending = some p) : t.isArmed = true := by
  rw [isArmed, h]
  rfl

theorem finish_eq_error_iff :
    t.finish = .error e ↔
      ∃ p, t.pending = some p ∧ e = ⟨some p.producer, p.producer, .neverConsumed p.source⟩ := by
  unfold finish
  cases t.pending with
  | none => simp
  | some p => simp [eq_comm]

end Tracker

/-! ## Histories of calls -/

/-- The tracker after the first `n` calls. -/
def held (calls : List Call) (n : Nat) : Tracker :=
  (calls.take n).foldl Tracker.afterCall .start

/-- The call at place `i` is `c`, and the tracker accepts it. -/
def Accepted (calls : List Call) (i : Nat) (c : Call) : Prop :=
  calls[i]? = some c ∧ ∃ next, (held calls i).answer c = .ok next

/-- Of the accepted calls before place `n` that are links, the latest is `c`, at
place `i`. -/
structure LatestLink (calls : List Call) (n i : Nat) (c : Call) (l : Link) : Prop where
  before : i < n
  accepted : Accepted calls i c
  link : c.link = some l
  between : ∀ k d, i < k → k < n → Accepted calls k d → d.link = none

variable {calls : List Call} {n i : Nat} {c : Call} {l : Link}

theorem held_succ (h : calls[n]? = some c) :
    held calls (n + 1) = (held calls n).afterCall c := by
  simp [held, List.take_add_one, h]

/-! What one more call does to the tracker. -/

theorem held_succ_of_link (h : Accepted calls n c) (hl : c.link = some l) :
    held calls (n + 1) = .afterLink c.origin l.family c.ins c.needed := by
  obtain ⟨hc, next, ha⟩ := h
  rw [held_succ hc, Tracker.afterCall_of_ok ha]
  cases Tracker.accepts_of_answer ha with
  | quiet hnone _ => cases hnone.symm.trans hl
  | produce hlink _ =>
      cases hlink.symm.trans hl
      rfl
  | consume hlink _ _ =>
      cases hlink.symm.trans hl
      rfl

theorem held_succ_of_quiet (h : ∀ c, Accepted calls n c → c.link = none) :
    held calls (n + 1) = held calls n := by
  cases hc : calls[n]? with
  | none => simp [held, List.take_add_one, hc]
  | some c =>
      rw [held_succ hc]
      cases ha : (held calls n).answer c with
      | error e => exact Tracker.afterCall_of_error ha
      | ok next =>
          have hnone := h c ⟨hc, next, ha⟩
          rw [Tracker.afterCall_of_ok ha]
          cases Tracker.accepts_of_answer ha with
          | quiet _ _ => rfl
          | produce hlink _ => cases hnone.symm.trans hlink
          | consume hlink _ _ => cases hnone.symm.trans hlink

/-! What the tracker holds, then, by the number of calls. -/

theorem held_of_no_link (h : ∀ k < n, ∀ c, Accepted calls k c → c.link = none) :
    held calls n = .start := by
  induction n with
  | zero => rfl
  | succ n ih =>
      rw [held_succ_of_quiet (h n (Nat.lt_succ_self n))]
      exact ih fun k hk => h k (Nat.lt_succ_of_lt hk)

namespace LatestLink

theorem of_accepted (h : Accepted calls n c) (hl : c.link = some l) :
    LatestLink calls (n + 1) n c l := by
  refine ⟨Nat.lt_succ_self n, h, hl, ?_⟩
  intro k d hnk hk
  omega

theorem succ (h : LatestLink calls n i c l) (hnone : ∀ c, Accepted calls n c → c.link = none) :
    LatestLink calls (n + 1) i c l := by
  refine ⟨Nat.lt_succ_of_lt h.before, h.accepted, h.link, ?_⟩
  intro k d hik hk
  rcases Nat.lt_succ_iff_lt_or_eq.mp hk with hlt | rfl
  · exact h.between k d hik hlt
  · exact hnone d

theorem earlier {k : Nat} (h : LatestLink calls n i c l) (hik : i < k) (hkn : k ≤ n) :
    LatestLink calls k i c l := by
  refine ⟨hik, h.accepted, h.link, ?_⟩
  intro k' d hik' hk'
  exact h.between k' d hik' (Nat.lt_of_lt_of_le hk' hkn)

/-- The tracker stays as the latest link left it. -/
theorem held_eq (h : LatestLink calls n i c l) :
    held calls n = .afterLink c.origin l.family c.ins c.needed := by
  induction n with
  | zero => exact absurd h.before (Nat.not_lt_zero i)
  | succ n ih =>
      rcases Nat.lt_succ_iff_lt_or_eq.mp h.before with hin | rfl
      · rw [held_succ_of_quiet fun d => h.between n d hin (Nat.lt_succ_self n)]
        exact ih (h.earlier hin (Nat.le_succ n))
      · exact held_succ_of_link h.accepted h.link

end LatestLink

theorem latestLink_or_none (calls : List Call) (n : Nat) :
    (∃ i c l, LatestLink calls n i c l) ∨ ∀ k < n, ∀ c, Accepted calls k c → c.link = none := by
  induction n with
  | zero =>
      right
      intro k hk
      exact absurd hk (Nat.not_lt_zero k)
  | succ n ih =>
      by_cases hlink : ∃ c l, Accepted calls n c ∧ c.link = some l
      · obtain ⟨c, l, hc, hl⟩ := hlink
        exact .inl ⟨n, c, l, .of_accepted hc hl⟩
      · have hnone : ∀ c, Accepted calls n c → c.link = none := by
          intro c hc
          rw [Option.eq_none_iff_forall_ne_some]
          intro l hl
          exact hlink ⟨c, l, hc, hl⟩
        rcases ih with ⟨i, c, l, h⟩ | hbefore
        · exact .inl ⟨i, c, l, h.succ hnone⟩
        · right
          intro k hk
          rcases Nat.lt_succ_iff_lt_or_eq.mp hk with hlt | rfl
          · exact hbefore k hlt
          · exact hnone

theorem isArmed_held_iff :
    (held calls n).isArmed = true ↔ ∃ i c l, LatestLink calls n i c l ∧ c.needed = true := by
  constructor
  · intro harmed
    rcases latestLink_or_none calls n with ⟨i, c, l, h⟩ | hnone
    · rw [h.held_eq, Tracker.isArmed_afterLink] at harmed
      exact ⟨i, c, l, h, harmed⟩
    · rw [held_of_no_link hnone] at harmed
      cases harmed
  · rintro ⟨i, c, l, h, hneeded⟩
    rw [h.held_eq, Tracker.isArmed_afterLink, hneeded]

theorem LatestLink.pending_held (h : LatestLink calls n i c l) (hneeded : c.needed = true) :
    (held calls n).pending = some ⟨c.origin, l.family, c.ins⟩ := by
  rw [h.held_eq, hneeded, Tracker.pending_afterLink]

/-- What is accepted after a link whose carry is needed, up to the next one, leaves
that carry alone. -/
theorem LatestLink.quiet_between {k : Nat} {d : Call} (h : LatestLink calls n i c l)
    (hneeded : c.needed = true) (hik : i < k) (hkn : k < n) (hd : Accepted calls k d) :
    d.link = none ∧ d.ins.preservesCarry = true := by
  have hnone : d.link = none := h.between k d hik hkn hd
  have harmed : (held calls k).isArmed = true :=
    isArmed_held_iff.mpr ⟨i, c, l, h.earlier hik (Nat.le_of_lt hkn), hneeded⟩
  obtain ⟨_, next, ha⟩ := hd
  refine ⟨hnone, ?_⟩
  cases Tracker.accepts_of_answer ha with
  | quiet _ hins => exact hins harmed
  | produce hlink _ => cases hnone.symm.trans hlink
  | consume hlink _ _ => cases hnone.symm.trans hlink

/-- A link that reads a carry is accepted only if the latest link left one of its
family for it. -/
theorem exists_latestLink_of_consume {family : Family} (h : Accepted calls n c)
    (hl : c.link = some ⟨.consume, family⟩) :
    ∃ i b role, LatestLink calls n i b ⟨role, family⟩ ∧ b.needed = true := by
  obtain ⟨_, next, ha⟩ := h
  cases Tracker.accepts_of_answer ha with
  | quiet hnone _ => cases hnone.symm.trans hl
  | produce hlink _ => cases hlink.symm.trans hl
  | consume hlink hp hfamily =>
      cases hlink.symm.trans hl
      obtain ⟨i, b, l, hlatest, hneeded⟩ := isArmed_held_iff.mp (Tracker.isArmed_of_pending hp)
      rw [hlatest.pending_held hneeded] at hp
      cases hp
      cases hfamily
      exact ⟨i, b, l.role, hlatest, hneeded⟩

/-- After any calls, refused or not: a refused call has changed nothing; a carry is
pending exactly if the latest accepted link left one that is needed, and then that
link is its producer; a link that reads a carry was accepted only if the latest link
before it left that carry for it, and nothing in between could touch it; and the
block cannot end exactly if a carry is pending, for which its producer is to blame. -/
theorem tracker_history (calls : List Call) (n : Nat) :
    (∀ c e, calls[n]? = some c → (held calls n).answer c = .error e →
      held calls (n + 1) = held calls n) ∧
    ((held calls n).isArmed = true ↔ ∃ i c l, LatestLink calls n i c l ∧ c.needed = true) ∧
    (∀ i c l, LatestLink calls n i c l → c.needed = true →
      ∃ p, (held calls n).pending = some p ∧ p.producer = c.origin) ∧
    (∀ c family, Accepted calls n c → c.link = some ⟨.consume, family⟩ →
      ∃ i b role, LatestLink calls n i b ⟨role, family⟩ ∧ b.needed = true ∧
        ∀ k d, i < k → k < n → Accepted calls k d →
          d.link = none ∧ d.ins.preservesCarry = true) ∧
    ((∃ e, (held calls n).finish = .error e) ↔ (held calls n).isArmed = true) ∧
    ∀ e, (held calls n).finish = .error e →
      ∃ p, (held calls n).pending = some p ∧ e.producer = some p.producer ∧
        e.offender = p.producer := by
  refine ⟨?_, isArmed_held_iff, ?_, ?_, ?_, ?_⟩
  · intro c e hc he
    rw [held_succ hc, Tracker.afterCall_of_error he]
  · intro i c l h hneeded
    exact ⟨_, h.pending_held hneeded, rfl⟩
  · intro c family hc hl
    obtain ⟨i, b, role, h, hneeded⟩ := exists_latestLink_of_consume hc hl
    exact ⟨i, b, role, h, hneeded, fun k d => h.quiet_between hneeded⟩
  · constructor
    · rintro ⟨e, he⟩
      obtain ⟨p, hp, _⟩ := Tracker.finish_eq_error_iff.mp he
      exact Tracker.isArmed_of_pending hp
    · intro harmed
      obtain ⟨p, hp⟩ := Option.isSome_iff_exists.mp harmed
      exact ⟨_, Tracker.finish_eq_error_iff.mpr ⟨p, hp, rfl⟩⟩
  · intro e he
    obtain ⟨p, hp, rfl⟩ := Tracker.finish_eq_error_iff.mp he
    exact ⟨p, hp, rfl, rfl⟩

/-- A copy that would spoil a pending carry is refused, and the link that reads the
carry is accepted after it all the same. -/
theorem tracker_history_past_refusal :
    let sum : Call := ⟨0, .binary .add (.reg ⟨0⟩) (.reg ⟨1⟩), some ⟨.produce, .add⟩, true⟩
    let copy : Call := ⟨1, .binary .mov (.reg ⟨2⟩) (.reg ⟨3⟩), none, false⟩
    let next : Call := ⟨2, .binary .adc (.reg ⟨4⟩) (.reg ⟨5⟩), some ⟨.consume, .add⟩, false⟩
    let calls := [sum, copy, next]
    held calls 2 = held calls 1 ∧ Accepted calls 2 next ∧
      ∃ role, LatestLink calls 2 0 sum ⟨role, .add⟩ := by
  intro sum copy next calls
  have hrefused : (held calls 1).answer copy =
      .error ⟨some 0, 1, .clobbered copy.ins sum.ins⟩ := rfl
  have haccepted : Accepted calls 2 next := ⟨rfl, ⟨none⟩, rfl⟩
  obtain ⟨hsame, _⟩ := tracker_history calls 1
  obtain ⟨_, _, _, hchain, _⟩ := tracker_history calls 2
  obtain ⟨i, b, role, h, _⟩ := hchain next .add haccepted rfl
  refine ⟨hsame copy _ rfl hrefused, haccepted, role, ?_⟩
  have hi := h.before
  obtain rfl | rfl : i = 0 ∨ i = 1 := by omega
  · obtain rfl : sum = b := Option.some.inj h.accepted.1
    exact h
  · obtain rfl : copy = b := Option.some.inj h.accepted.1
    exact nomatch h.link

end TwoAddress.Carry
