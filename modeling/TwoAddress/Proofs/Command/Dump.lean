/-
# `Proofs.Command.Dump` — what is printed as JSON can be read back

Lowered code is read from its own text as it was written: every record, with every
operand, whichever opcode, flag and 64-bit place it has. A run never writes a place
that does not fit (`origin_lt_of_lowerBlock`), so whatever a run puts out as JSON is
read back as the results of its blocks, in the order of the blocks, and null stands
where a block has been refused and nowhere else (`Ends.dumps`).
-/
import TwoAddress.Proofs.Codec.Lossless
import TwoAddress.Proofs.Command.Run
import TwoAddress.Proofs.Json.RoundTrip
import TwoAddress.Proofs.Lowering.Acceptance

namespace TwoAddress

open Json

theorem LoweredBlock.ofText?_pretty {b : LoweredBlock} (h : ∀ x ∈ b.items, x.origin < UInt64.size) :
    (read? b.toJson.pretty).bind LoweredBlock.ofJson? = some b := by
  rw [read?_pretty, Option.bind_some, LoweredBlock.ofJson?_toJson h]

theorem Target.origin_lt_of_lowerBlock {t : Target} {block : List Instruction}
    {out : LoweredBlock} (h : t.lowerBlock block = .ok out) :
    ∀ x ∈ out.items, x.origin < UInt64.size := by
  intro x hx
  obtain ⟨hfits, _, groups, hgroups, rfl⟩ := clean_of_lowerBlock h
  obtain ⟨group, hgroup, _⟩ := mem_items_iff.mp hx
  have hlt : x.origin < groups.length := (List.getElem?_eq_some_iff.mp hgroup).1
  have hlength : block.length = groups.length := by
    simpa using congrArg List.length hgroups
  have hlimit := t.maxBlockLen.toNat_lt_size
  omega

namespace Command

variable {o : Options} {target listing : Contents} {t : Target}
  {blocks : List (List Instruction)} {r : Result} {result : Except Error LoweredBlock}

theorem lowered?_eq_some_iff {b : LoweredBlock} : lowered? result = some b ↔ result = .ok b := by
  cases result <;> simp [lowered?]

theorem lowered?_eq_none_iff : lowered? result = none ↔ ∃ e, result = .error e := by
  cases result <;> simp [lowered?]

theorem ofOption_toJson_eq_null_iff {b : Option LoweredBlock} :
    ofOption LoweredBlock.toJson b = .null ↔ b = none := by
  cases b with
  | none => exact ⟨fun _ => rfl, fun _ => rfl⟩
  | some b => exact ⟨fun h => absurd h b.toJson_ne_null, fun h => nomatch h⟩

theorem Ends.read?_output (h : Ends o t blocks r) (hjson : o.format = .json) :
    read? r.output = some (LoweredBlock.allToJson
      (blocks.map fun b => lowered? (t.lowerBlock b))) := by
  rw [h.output_eq, hjson, render, read?_concat_newLine, read?_pretty]

theorem null_at_iff {i : Nat} {b : List Instruction} (hb : blocks[i]? = some b) :
    ((blocks.map fun b => lowered? (t.lowerBlock b)).map (ofOption LoweredBlock.toJson))[i]? =
      some Json.null ↔ ∃ e, t.lowerBlock b = .error e := by
  rw [List.getElem?_map, List.getElem?_map, hb, Option.map_some, Option.map_some,
    Option.some.injEq, ofOption_toJson_eq_null_iff, lowered?_eq_none_iff]

/-- The text is read as the results of the blocks, in their order: as a list of as many
values, of which null stands for the blocks that are refused and for no others. -/
structure Dumps (t : Target) (blocks : List (List Instruction)) (text : List Char) : Prop where
  results : (read? text).bind LoweredBlock.allOfJson? =
    some (blocks.map fun b => lowered? (t.lowerBlock b))
  values : ∃ values, read? text = some (.arr values) ∧ values.length = blocks.length ∧
    ∀ (i : Nat) (b : List Instruction), blocks[i]? = some b →
      (values[i]? = some Json.null ↔ ∃ e, t.lowerBlock b = .error e) ∧
      ∀ out, t.lowerBlock b = .ok out →
        ∃ v, values[i]? = some v ∧ LoweredBlock.ofJson? v = some out

theorem Dumps.ne_none {text : List Char} (h : Dumps t blocks text) : read? text ≠ none := by
  obtain ⟨values, hread, _⟩ := h.values
  simp [hread]

/-- What a run puts out as JSON, however its workers act, is a dump of its blocks. -/
theorem Ends.dumps (h : Ends o t blocks r) (hjson : o.format = .json) :
    Dumps t blocks r.output := by
  have hread := h.read?_output hjson
  refine ⟨?_, _, hread, by simp, ?_⟩
  · rw [hread, Option.bind_some]
    refine LoweredBlock.allOfJson?_allToJson ?_
    intro out hout
    obtain ⟨b, _, hb⟩ := List.mem_map.mp hout
    exact Target.origin_lt_of_lowerBlock (lowered?_eq_some_iff.mp hb)
  · intro i b hb
    refine ⟨null_at_iff hb, ?_⟩
    intro out hout
    simp only [List.getElem?_map, hb, Option.map_some, hout]
    refine ⟨_, rfl, ?_⟩
    exact LoweredBlock.ofJson?_toJson (Target.origin_lt_of_lowerBlock hout)

end Command

end TwoAddress
