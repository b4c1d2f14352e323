/-
# `Proofs.Carry.Fault` — faults of a block, place by place

`FaultAt t block i e`: something is wrong at place `i`, and `e` is the error
that says so. It looks at the links around the place and at its group, never at
a state. The tracker does carry a state, and `Tracks` says which: at a place
where the carry is awaited it holds what the nearest link before left, and
elsewhere nothing.

Two facts about one place follow. A fault is reported as the very error it
stands for (`lowerPlace_fault`), and a place without fault is passed, with the
invariant kept (`lowerPlace_sound`). `lowerFrom_sound` and `lowerFrom_fault`
carry them over the rest of a block.
-/
import TwoAddress.Proofs.Carry.Group

namespace TwoAddress

namespace Carry

/-! ## Faults -/

/-- What becomes of the instruction at a place, if there is one. -/
def groupAt (t : Target) (block : List Instruction) (i : Nat) :
    Option (Except Error (List Instruction)) :=
  block[i]?.map t.lower

/-- `p` is the carry that the nearest link before place `i` leaves. -/
def LeftBefore (t : Target) (block : List Instruction) (i : Nat) (p : Pending) : Prop :=
  ∃ l group, Nearest block i p.producer l ∧ p.family = l.family ∧
    groupAt t block p.producer = some (.ok group) ∧ l.workerIn group = some p.source

/-- Something is wrong at place `i`, and the error says what. -/
inductive FaultAt (t : Target) (block : List Instruction) (i : Nat) : Error → Prop
  /-- The instruction itself cannot be lowered. -/
  | refused {e : Error} : groupAt t block i = some (.error e) → FaultAt t block i e
  /-- A carry is read, and no link stands before. -/
  | noProducer {l : Link} {group : List Instruction} {w : Instruction} :
      linkAt block i = some l → l.role = .consume → (∀ j < i, linkAt block j = none) →
      groupAt t block i = some (.ok group) → l.workerIn group = some w →
      FaultAt t block i (.carry ⟨none, i, .noProducer w⟩)
  /-- A carry is read that belongs to the other family. -/
  | wrongFamily {l : Link} {w : Instruction} {p : Pending} :
      linkAt block i = some l → l.role = .consume → LeftBefore t block i p →
      groupAt t block i = some (.ok [w]) → p.family ≠ l.family →
      FaultAt t block i (.carry ⟨some p.producer, i, .wrongFamily w p.family p.source⟩)
  /-- A carry is read, but the group does something else before. -/
  | prepared {l : Link} {m : Instruction} {rest : List Instruction} {p : Pending} :
      linkAt block i = some l → l.role = .consume → LeftBefore t block i p →
      groupAt t block i = some (.ok (m :: rest)) → rest ≠ [] →
      FaultAt t block i (.carry ⟨some p.producer, i, .clobbered m p.source⟩)
  /-- A carry that is awaited behind the place is destroyed. -/
  | clobbered {group : List Instruction} {g : Instruction} {p : Pending} :
      linkAt block i = none → Awaited block (i + 1) → LeftBefore t block i p →
      groupAt t block i = some (.ok group) →
      group.find? (fun x => !decide x.Inert) = some g →
      FaultAt t block i (.carry ⟨some p.producer, i, .clobbered g p.source⟩)

variable {t : Target} {block : List Instruction} {i : Nat} {ins : Instruction}
  {tracker : Tracker} {p : Pending}

theorem LeftBefore.unique {p' : Pending} (h : LeftBefore t block i p)
    (h' : LeftBefore t block i p') : p = p' := by
  obtain ⟨l, group, hn, hf, hg, hw⟩ := h
  obtain ⟨l', group', hn', hf', hg', hw'⟩ := h'
  obtain ⟨hj, rfl⟩ := hn.unique hn'
  rw [← hj, hg] at hg'
  cases hg'
  rw [hw, Option.some.injEq] at hw'
  obtain ⟨producer, family, source⟩ := p
  obtain ⟨producer', family', source'⟩ := p'
  simp only at hj hf hf' hw'
  rw [hj, hf, hf', hw']

theorem LeftBefore.link_before (h : LeftBefore t block i p) :
    ∃ j < i, ∃ l, linkAt block j = some l := by
  obtain ⟨l, _, hn, _⟩ := h
  exact ⟨p.producer, hn.before, l, hn.link⟩

theorem LeftBefore.succ (h : LeftBefore t block i p) (hi : linkAt block i = none) :
    LeftBefore t block (i + 1) p := by
  obtain ⟨l, group, hn, hf, hg, hw⟩ := h
  exact ⟨l, group, hn.succ hi, hf, hg, hw⟩

theorem groupAt_of_getElem? (h : block[i]? = some ins) :
    groupAt t block i = some (t.lower ins) := by
  rw [groupAt, h]
  rfl

theorem FaultAt.lt_length {e : Error} (h : FaultAt t block i e) : i < block.length := by
  have some_lt {r : Except Error (List Instruction)} (hg : groupAt t block i = some r) :
      i < block.length := by
    obtain ⟨ins, hins, _⟩ := Option.map_eq_some_iff.mp hg
    exact (List.getElem?_eq_some_iff.mp hins).1
  cases h with
  | refused hg => exact some_lt hg
  | noProducer _ _ _ hg _ => exact some_lt hg
  | wrongFamily _ _ _ hg _ => exact some_lt hg
  | prepared _ _ _ hg _ => exact some_lt hg
  | clobbered _ _ _ hg _ => exact some_lt hg

/-! ## What the tracker holds -/

/-- What the tracker holds before place `i`: the carry left by the nearest link,
if it is awaited, and otherwise nothing. -/
structure Tracks (t : Target) (block : List Instruction) (i : Nat) (tracker : Tracker) :
    Prop where
  idle : ¬ Awaited block i → tracker.pending = none
  armed : Awaited block i → (∃ p, tracker.pending = some p ∧ LeftBefore t block i p) ∨
    (tracker.pending = none ∧ ∀ j < i, linkAt block j = none)

theorem tracks_start (t : Target) (block : List Instruction) : Tracks t block 0 .start :=
  ⟨fun _ => rfl, fun _ => .inr ⟨rfl, fun j hj => absurd hj (Nat.not_lt_zero j)⟩⟩

theorem Tracks.leftBefore (h : Tracks t block i tracker) (hp : tracker.pending = some p) :
    LeftBefore t block i p := by
  by_cases ha : Awaited block i
  · rcases h.armed ha with ⟨p', hp', hleft⟩ | ⟨hnone, _⟩
    · rw [hp, Option.some.injEq] at hp'
      exact hp' ▸ hleft
    · exact nomatch hp.symm.trans hnone
  · exact nomatch hp.symm.trans (h.idle ha)

theorem Tracks.pending_of_leftBefore (h : Tracks t block i tracker) (ha : Awaited block i)
    (hleft : LeftBefore t block i p) : tracker.pending = some p := by
  rcases h.armed ha with ⟨p', hp', hleft'⟩ | ⟨_, hnone⟩
  · rw [hp', hleft'.unique hleft]
  · obtain ⟨j, hj, l, hl⟩ := hleft.link_before
    exact nomatch hl.symm.trans (hnone j hj)

theorem Tracks.pending_of_first (h : Tracks t block i tracker)
    (hfirst : ∀ j < i, linkAt block j = none) : tracker.pending = none := by
  cases hp : tracker.pending with
  | none => rfl
  | some p =>
      obtain ⟨j, hj, l, hl⟩ := (h.leftBefore hp).link_before
      exact nomatch hl.symm.trans (hfirst j hj)

theorem Tracks.succ (h : Tracks t block i tracker) (hi : linkAt block i = none) :
    Tracks t block (i + 1) tracker := by
  constructor
  · intro hna
    exact h.idle fun ha => hna ((awaited_of_none hi).mp ha)
  · intro ha
    rcases h.armed ((awaited_of_none hi).mpr ha) with ⟨p, hp, hleft⟩ | ⟨hp, hnone⟩
    · exact .inl ⟨p, hp, hleft.succ hi⟩
    · refine .inr ⟨hp, ?_⟩
      intro j hj
      rcases Nat.lt_succ_iff_lt_or_eq.mp hj with hlt | rfl
      · exact hnone j hlt
      · exact hi

theorem tracks_afterLink {l : Link} {group : List Instruction} {w : Instruction}
    (hl : linkAt block i = some l) (hg : groupAt t block i = some (.ok group))
    (hw : l.workerIn group = some w) :
    Tracks t block (i + 1)
      (Tracker.afterLink i l.family w (demanded (block.drop (i + 1)))) := by
  constructor
  · intro hna
    rw [← demanded_drop_iff] at hna
    simp [Tracker.afterLink, hna]
  · intro ha
    rw [← demanded_drop_iff] at ha
    refine .inl ⟨⟨i, l.family, w⟩, ?_, ?_⟩
    · simp [Tracker.afterLink, ha]
    · exact ⟨l, group, Nearest.of_linkAt hl, rfl, hg, hw⟩

/-! ## One place -/

/-- Lowers the instruction at a place and passes its group. -/
def lowerPlace (t : Target) (i : Nat) (tracker : Tracker) (ins : Instruction) (needed : Bool) :
    Except Error (Tracker × List Lowered) := do
  let group ← t.lower ins
  (tracker.passGroup i needed (marked ins group)).outcome

theorem lowerPlace_of_lower {group : List Instruction} {needed : Bool}
    (h : t.lower ins = .ok group) :
    lowerPlace t i tracker ins needed =
      (tracker.passGroup i needed (marked ins group)).outcome := by
  rw [lowerPlace, h]
  rfl

theorem lower_of_groupAt {r : Except Error (List Instruction)} (hins : block[i]? = some ins)
    (h : groupAt t block i = some r) : t.lower ins = r :=
  Option.some.inj ((groupAt_of_getElem? hins).symm.trans h)

/-- A fault at a place is reported as it stands. -/
theorem lowerPlace_fault {e : Error} {needed : Bool} (hins : block[i]? = some ins)
    (ht : Tracks t block i tracker) (hf : FaultAt t block i e) :
    lowerPlace t i tracker ins needed = .error e := by
  have link_of {l : Link} (hl : linkAt block i = some l) : Link.of? ins = some l :=
    (linkAt_of_getElem? hins).symm.trans hl
  cases hf with
  | refused hg =>
      rw [lowerPlace, lower_of_groupAt hins hg]
      rfl
  | @noProducer l group w hl hrole hfirst hg hw =>
      have hlow := lower_of_groupAt hins hg
      obtain ⟨w', hgroup⟩ := lower_link (link_of hl) hlow
      obtain rfl := Option.some.inj (hgroup.workerIn.symm.trans hw)
      rw [lowerPlace_of_lower hlow]
      exact Tracker.passGroup_noProducer (link_of hl) hrole hgroup (ht.pending_of_first hfirst)
  | @wrongFamily l w p hl hrole hleft hg hfam =>
      have hlow := lower_of_groupAt hins hg
      obtain ⟨w', hgroup⟩ := lower_link (link_of hl) hlow
      obtain rfl : w' = w := by cases hgroup; rfl
      have hp := ht.pending_of_leftBefore ((awaited_of_link hl).mpr hrole) hleft
      rw [lowerPlace_of_lower hlow]
      exact Tracker.passGroup_wrongFamily (link_of hl) hrole hgroup hp hfam
  | @prepared l m rest p hl hrole hleft hg hrest =>
      have hlow := lower_of_groupAt hins hg
      obtain ⟨w', hgroup⟩ := lower_link (link_of hl) hlow
      have hp := ht.pending_of_leftBefore ((awaited_of_link hl).mpr hrole) hleft
      rw [lowerPlace_of_lower hlow]
      exact Tracker.passGroup_prepared (link_of hl) hgroup hrest hp
  | @clobbered group g p hl ha hleft hg hfind =>
      have hlow := lower_of_groupAt hins hg
      have hnone : Link.of? ins = none := (linkAt_of_getElem? hins).symm.trans hl
      have hp := ht.pending_of_leftBefore ((awaited_of_none hl).mpr ha) hleft
      rw [lowerPlace_of_lower hlow, marked_of_none hnone]
      exact Tracker.passGroup_clobbered hp hfind

theorem lowerPlace_sound_none {needed : Bool} {group : List Instruction}
    (hins : block[i]? = some ins) (ht : Tracks t block i tracker)
    (hclean : ∀ e, ¬ FaultAt t block i e) (hlow : t.lower ins = .ok group)
    (hl : linkAt block i = none) :
    lowerPlace t i tracker ins needed = .ok (tracker, Lowered.ofGroup i group) := by
  rw [lowerPlace_of_lower hlow, marked_of_none ((linkAt_of_getElem? hins).symm.trans hl)]
  refine Tracker.passGroup_quiet ?_
  cases hp : tracker.pending with
  | none => exact .inl rfl
  | some p =>
      right
      intro g hg
      refine Classical.byContradiction ?_
      intro hni
      -- some instruction is not inert, so there is a first one, and it is a fault
      cases hfind : group.find? (fun x => !decide x.Inert) with
      | none => exact hni (by simpa using List.find?_eq_none.mp hfind g hg)
      | some g' =>
          have ha : Awaited block i := by
            refine Classical.byContradiction ?_
            intro hna
            cases hp.symm.trans (ht.idle hna)
          exact hclean _ (.clobbered hl ((awaited_of_none hl).mp ha) (ht.leftBefore hp)
            ((groupAt_of_getElem? hins).trans (congrArg some hlow)) hfind)

theorem lowerPlace_sound_link {needed : Bool} {group : List Instruction} {l : Link}
    (hins : block[i]? = some ins) (ht : Tracks t block i tracker)
    (hclean : ∀ e, ¬ FaultAt t block i e) (hlow : t.lower ins = .ok group)
    (hl : linkAt block i = some l) :
    ∃ w, l.workerIn group = some w ∧ lowerPlace t i tracker ins needed =
      .ok (.afterLink i l.family w needed, Lowered.ofGroup i group) := by
  have hof : Link.of? ins = some l := (linkAt_of_getElem? hins).symm.trans hl
  have hgroupAt : groupAt t block i = some (.ok group) :=
    (groupAt_of_getElem? hins).trans (congrArg some hlow)
  obtain ⟨w, hgroup⟩ := lower_link hof hlow
  refine ⟨w, hgroup.workerIn, ?_⟩
  rw [lowerPlace_of_lower hlow]
  cases hrole : l.role with
  | produce =>
      have hna : ¬ Awaited block i := by
        intro ha
        cases hrole.symm.trans ((awaited_of_link hl).mp ha)
      exact Tracker.passGroup_produce hof hrole hgroup (ht.idle hna)
  | consume =>
      rcases ht.armed ((awaited_of_link hl).mpr hrole) with ⟨p, hp, hleft⟩ | ⟨_, hnone⟩
      · match group, hgroup with
        | [g], hgroup =>
            obtain rfl : w = g := by cases hgroup; rfl
            have hfam : p.family = l.family := by
              refine Classical.byContradiction ?_
              intro hne
              exact hclean _ (.wrongFamily hl hrole hleft hgroupAt hne)
            exact Tracker.passGroup_consume hof hrole hgroup hp hfam
        | m :: g :: rest, _ =>
            exact absurd (.prepared hl hrole hleft hgroupAt (List.cons_ne_nil g rest)) (hclean _)
      · exact absurd (.noProducer hl hrole hnone hgroupAt hgroup.workerIn) (hclean _)

/-- A place without fault is passed, and the tracker goes on as it should. -/
theorem lowerPlace_sound (hins : block[i]? = some ins) (ht : Tracks t block i tracker)
    (hclean : ∀ e, ¬ FaultAt t block i e) :
    ∃ group next, t.lower ins = .ok group ∧ Tracks t block (i + 1) next ∧
      lowerPlace t i tracker ins (demanded (block.drop (i + 1))) =
        .ok (next, Lowered.ofGroup i group) := by
  cases hlow : t.lower ins with
  | error e =>
      exact absurd (.refused ((groupAt_of_getElem? hins).trans (congrArg some hlow))) (hclean e)
  | ok group =>
      cases hl : linkAt block i with
      | none =>
          exact ⟨group, tracker, rfl, ht.succ hl, lowerPlace_sound_none hins ht hclean hlow hl⟩
      | some l =>
          obtain ⟨w, hw, hplace⟩ := lowerPlace_sound_link hins ht hclean hlow hl
          have hg : groupAt t block i = some (.ok group) :=
            (groupAt_of_getElem? hins).trans (congrArg some hlow)
          exact ⟨group, _, rfl, tracks_afterLink hl hg hw, hplace⟩

/-! ## The rest of a block -/

/-- The items that groups make, the first of them at place `i`. -/
def itemsFrom (i : Nat) (groups : List (List Instruction)) : List Lowered :=
  (groups.mapIdx fun k group => Lowered.ofGroup (i + k) group).flatten

theorem itemsFrom_cons (i : Nat) (group : List Instruction) (groups : List (List Instruction)) :
    itemsFrom i (group :: groups) = Lowered.ofGroup i group ++ itemsFrom (i + 1) groups := by
  simp only [itemsFrom, List.mapIdx_cons, List.flatten_cons, Nat.add_zero]
  congr 3
  funext k
  rw [Nat.add_right_comm, Nat.add_assoc]

theorem outcome_lowerFrom_cons {needed : Bool} {rest : List (Instruction × Bool)} :
    (t.lowerFrom i tracker ((ins, needed) :: rest)).outcome =
      (lowerPlace t i tracker ins needed >>= fun x =>
        (t.lowerFrom (i + 1) x.1 rest).outcome.map (x.2 ++ ·)) := by
  simp only [Target.lowerFrom, Traced.outcome_bind, Target.outcome_lowerTraced, lowerPlace]
  cases t.lower ins with
  | error e => rfl
  | ok group =>
      show (tracker.passGroup i needed (marked ins group)).outcome >>= _ =
        (tracker.passGroup i needed (marked ins group)).outcome >>= _
      cases (tracker.passGroup i needed (marked ins group)).outcome with
      | error e => rfl
      | ok x =>
          show (t.lowerFrom (i + 1) x.1 rest).outcome >>= _ =
            (t.lowerFrom (i + 1) x.1 rest).outcome.map (x.2 ++ ·)
          cases (t.lowerFrom (i + 1) x.1 rest).outcome <;> rfl

/-- Without a fault from place `i` on, the rest of the block is lowered to the
groups of its instructions. -/
theorem lowerFrom_sound (ht : Tracks t block i tracker)
    (hclean : ∀ k, i ≤ k → ∀ e, ¬ FaultAt t block k e) :
    ∃ groups, (block.drop i).map t.lower = groups.map .ok ∧
      (t.lowerFrom i tracker ((block.drop i).zip (demand (block.drop i)))).outcome =
        .ok (itemsFrom i groups) := by
  induction hn : block.length - i generalizing i tracker with
  | zero =>
      have hlen : block.length ≤ i := Nat.le_of_sub_eq_zero hn
      have hdrop : block.drop i = [] := List.drop_eq_nil_of_le hlen
      have hpend : tracker.pending = none := ht.idle (not_awaited_of_length_le hlen)
      refine ⟨[], by rw [hdrop]; rfl, ?_⟩
      rw [hdrop]
      simp only [demand_nil, List.zip_nil_left, Target.lowerFrom, Traced.outcome_bind,
        Tracker.close, Tracker.finish, hpend]
      rfl
  | succ n ih =>
      have hi : i < block.length := by omega
      have hins : block[i]? = some block[i] := List.getElem?_eq_getElem hi
      have hdrop := List.drop_eq_getElem_cons hi
      obtain ⟨group, next, hlow, hnext, hplace⟩ :=
        lowerPlace_sound hins ht (hclean i (Nat.le_refl i))
      obtain ⟨groups, hgroups, hrest⟩ :=
        ih hnext (fun k hk => hclean k (Nat.le_of_succ_le hk)) (by omega)
      refine ⟨group :: groups, ?_, ?_⟩
      · rw [hdrop, List.map_cons, hlow, hgroups, List.map_cons]
      · rw [hdrop, demand_cons, List.zip_cons_cons, outcome_lowerFrom_cons, hplace, itemsFrom_cons]
        show (t.lowerFrom (i + 1) next _).outcome.map _ = _
        rw [hrest]
        rfl

/-- The first fault from place `i` on is the error of the rest of the block. -/
theorem lowerFrom_fault {k : Nat} {e : Error} (ht : Tracks t block i tracker) (hik : i ≤ k)
    (hclean : ∀ j, i ≤ j → j < k → ∀ e, ¬ FaultAt t block j e) (hf : FaultAt t block k e) :
    (t.lowerFrom i tracker ((block.drop i).zip (demand (block.drop i)))).outcome = .error e := by
  have hk : k < block.length := hf.lt_length
  induction hn : k - i generalizing i tracker with
  | zero =>
      obtain rfl : i = k := by omega
      have hins : block[i]? = some block[i] := List.getElem?_eq_getElem hk
      have hdrop := List.drop_eq_getElem_cons hk
      rw [hdrop, demand_cons, List.zip_cons_cons, outcome_lowerFrom_cons,
        lowerPlace_fault hins ht hf]
      rfl
  | succ n ih =>
      have hlt : i < k := by omega
      have hi : i < block.length := Nat.lt_trans hlt hk
      have hins : block[i]? = some block[i] := List.getElem?_eq_getElem hi
      have hdrop := List.drop_eq_getElem_cons hi
      obtain ⟨group, next, _, hnext, hplace⟩ :=
        lowerPlace_sound hins ht (hclean i (Nat.le_refl i) hlt)
      rw [hdrop, demand_cons, List.zip_cons_cons, outcome_lowerFrom_cons, hplace]
      show (t.lowerFrom (i + 1) next _).outcome.map _ = _
      rw [ih hnext hlt (fun j hj => hclean j (Nat.le_of_succ_le hj)) (by omega)]
      rfl

end Carry

end TwoAddress
