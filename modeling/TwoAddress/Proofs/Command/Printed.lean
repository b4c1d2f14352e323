/-
# `Proofs.Command.Printed` — lowered code and counters on one stream

A run that counts writes the lines of its counters behind the code. No listing is
empty, and each of its blocks touches a counter, so there are such lines whenever
they are asked for (`Ends.metrics_eq_nil_iff`), and the first of them is a comment,
which JSON does not have. Hence what a run writes can be read as a whole where no
counters are asked for, and nowhere else; of a run that counts it is the part before
the counters that can be read back (`json_lossless`).
-/
import TwoAddress.Proofs.Command.Accounts

namespace TwoAddress.Command

open Json

variable {o : Options} {target listing : Contents} {t : Target}
  {blocks : List (List Instruction)} {r : Result}

theorem Ends.metrics_eq_nil_iff (h : Ends o t blocks r) (hne : blocks ≠ []) :
    r.metrics = [] ↔ o.metrics = false := by
  constructor
  · intro hnil
    refine Bool.eq_false_iff.mpr ?_
    intro hm
    -- without lines every counter reads zero, but each block is counted somewhere
    have htotal := h.readOff_total hm
    rw [hnil] at htotal
    exact hne (List.length_eq_zero_iff.mp htotal.symm)
  · intro hm
    rw [h.metrics_eq, hm]
    rfl

theorem Ends.printed_eq (h : Ends o t blocks r) (hm : o.metrics = false) :
    r.printed = r.output := by
  rw [Result.printed, h.metrics_eq, hm]
  exact List.append_nil _

theorem Ends.printed_eq_iff (h : Ends o t blocks r) (hne : blocks ≠ []) :
    r.printed = r.output ↔ o.metrics = false := by
  refine ⟨?_, h.printed_eq⟩
  intro he
  rw [← h.metrics_eq_nil_iff hne]
  have hnil : Text.unlines (r.metrics.map String.toList) = [] :=
    List.append_cancel_left (he.trans (List.append_nil _).symm)
  cases hlines : r.metrics with
  | nil => rfl
  | cons line rest => simp [hlines, Text.unlines] at hnil

/-- Behind the code the counters make the whole unreadable as JSON. -/
theorem Ends.read?_printed_eq_none (h : Ends o t blocks r) (hne : blocks ≠ [])
    (hjson : o.format = .json) (hm : o.metrics = true) : read? r.printed = none := by
  have hlines : (Metrics.ofEvents r.events).lines ≠ [] := by
    intro hnil
    have hmetrics : r.metrics = [] := by rw [h.metrics_eq, if_pos hm, hnil]
    exact nomatch hm.symm.trans ((h.metrics_eq_nil_iff hne).mp hmetrics)
  obtain ⟨rest, hrest⟩ := Metrics.exists_unlines_lines hlines
  rw [Result.printed, h.metrics_eq, if_pos hm, hrest, h.output_eq, hjson, render, List.append_assoc]
  exact read?_pretty_append _ (fun _ => rfl) rest

/-- Lowered code is what its JSON is read as. What a run puts out as JSON, however its
workers act, is read as the results of its blocks in order, with null for those that
have been refused. On its standard output this comes first; it is all that the run
writes, and all of it can be read so, exactly if no counters are asked for. -/
theorem json_lossless :
    (∀ b : LoweredBlock, (∀ x ∈ b.items, x.origin < UInt64.size) →
      LoweredBlock.ofJson? b.toJson = some b ∧
      (read? b.toJson.pretty).bind LoweredBlock.ofJson? = some b) ∧
    ∀ o target listing t blocks, Begins o target listing t blocks → o.format = .json →
      Ends o t blocks (run o target listing) ∧
      ∀ r, Ends o t blocks r →
        Dumps t blocks r.output ∧ r.output <+: r.printed ∧
        (r.printed = r.output ↔ o.metrics = false) ∧
        (Dumps t blocks r.printed ↔ o.metrics = false) ∧
        (read? r.printed = none ↔ o.metrics = true) := by
  constructor
  · intro b hb
    exact ⟨LoweredBlock.ofJson?_toJson hb, LoweredBlock.ofText?_pretty hb⟩
  · intro o target listing t blocks hbegins hjson
    refine ⟨ends_run hbegins, ?_⟩
    intro r hends
    obtain ⟨source, _, hsource⟩ := hbegins.listing
    have hne := Assembly.blocks_ne_nil hsource
    have hdump := hends.dumps hjson
    refine ⟨hdump, List.prefix_append _ _, hends.printed_eq_iff hne, ?_⟩
    cases hm : o.metrics with
    | false =>
        rw [hends.printed_eq hm]
        exact ⟨⟨fun _ => rfl, fun _ => hdump⟩, fun h => absurd h hdump.ne_none, fun h => nomatch h⟩
    | true =>
        have hnone := hends.read?_printed_eq_none hne hjson hm
        exact ⟨⟨fun h => absurd hnone h.ne_none, fun h => nomatch h⟩, fun _ => rfl, fun _ => hnone⟩

/-- A record with the last place of all, which no run writes; and a run with a block
that is lowered, with an index without base, and a block that is refused. -/
theorem json_lossless_refused_block :
    let o : Options := { Options.default with format := .json }
    let source := "ADD3 [R1*1+7], [R1*1+7], 2\n---\nADC R0, R1\n".toList
    let ins : Instruction :=
      .binary .add (.mem ⟨none, some ⟨⟨1⟩, 1⟩, 7⟩) (.imm 2)
    let last : LoweredBlock := ⟨[⟨ins, true, 18446744073709551615⟩]⟩
    (read? last.toJson.pretty).bind LoweredBlock.ofJson? = some last ∧
    (read? (run o (.ok []) (.ok source)).printed).bind LoweredBlock.allOfJson? =
      some [some ⟨[⟨ins, false, 0⟩]⟩, none] := by
  intro o source ins last
  have hblocks : Assembly.blocks source = .ok
      [[.ternary .add3 (.mem ⟨none, some ⟨⟨1⟩, 1⟩, 7⟩) (.mem ⟨none, some ⟨⟨1⟩, 1⟩, 7⟩) (.imm 2)],
        [.binary .adc (.reg ⟨0⟩) (.reg ⟨1⟩)]] := rfl
  have hbegins : Begins o (.ok []) (.ok source) .amd64 _ := ⟨rfl, source, rfl, hblocks⟩
  obtain ⟨hends, hall⟩ := json_lossless.2 o (.ok []) (.ok source) .amd64 _ hbegins rfl
  have hlast : ∀ x ∈ last.items, x.origin < UInt64.size := by decide
  have hprinted := (hall _ hends).2.2.2.1.mpr rfl
  exact ⟨(json_lossless.1 last hlast).2, hprinted.results.trans (congrArg some (by decide))⟩

/-- With counters asked for, what is written behind the dump of a block keeps the whole
from being read as that dump. -/
theorem json_dump_then_counters :
    let o : Options := { Options.default with format := .json, metrics := true }
    let source := "RET\n".toList
    let blocks : List (List Instruction) := [[.nullary .ret]]
    let r := run o (.ok []) (.ok source)
    Begins o (.ok []) (.ok source) .amd64 blocks ∧
    (read? r.output).bind LoweredBlock.allOfJson? =
      some [some ⟨[⟨.nullary .ret, true, 0⟩]⟩] ∧
    read? r.printed = none ∧ ¬ Dumps .amd64 blocks r.printed := by
  intro o source blocks r
  have hbegins : Begins o (.ok []) (.ok source) .amd64 blocks := ⟨rfl, source, rfl, rfl⟩
  have hends : Ends o .amd64 blocks r := ends_run hbegins
  have hnone : read? r.printed = none :=
    hends.read?_printed_eq_none (List.cons_ne_nil _ _) rfl rfl
  refine ⟨hbegins, (hends.dumps rfl).results.trans (congrArg some (by decide)), hnone, ?_⟩
  exact fun hdump => hdump.ne_none hnone

end TwoAddress.Command
