/-
# `Proofs.Metrics.Lines` — counters are read off their lines

The line of a counter is its name with its labels, a blank and its value. A reader
who looks for the value of a counter takes the first line that begins so, and zero
where no line does (`Counter.readOff`). What is read is what was counted
(`readOff_lines`), for no line is taken for that of another counter: without blanks
in them, name and labels end at the first blank, and no two counters have the same
(`Counter.key_injective`).
-/
import TwoAddress.Proofs.Metrics.Tally
import TwoAddress.Proofs.Text.Numeral

namespace TwoAddress

variable {m : Metrics} {c c' : Counter} {n k : Nat} {entry : Counter × Nat}

namespace Counter

/-! ## Names with labels -/

/-- What a line about the counter begins with. -/
def key (c : Counter) : List Char :=
  c.name.toList ++ c.labels.toList

/-- The letter by which the name of a counter differs from those of the others. -/
def letter : Counter → Char
  | blocks => 'b'
  | instructions => 'i'
  | fusions => 'l'
  | carryViolations => 'c'
  | errors _ => 'e'

theorem getElem?_key (c : Counter) : c.key[11]? = some c.letter := by
  have hname : c.name.toList[11]? = some c.letter := by
    cases c with
    | errors label => exact (rfl : "lowerforge_errors_total".toList[11]? = some 'e')
    | _ => rfl
  rw [key, List.getElem?_append_left (List.getElem?_eq_some_iff.mp hname).1, hname]

theorem head?_key (c : Counter) : c.key.head? = some 'l' := by
  have hname : c.name.toList.head? = some 'l' := by
    cases c with
    | errors label => exact (rfl : "lowerforge_errors_total".toList.head? = some 'l')
    | _ => rfl
  rw [key, List.head?_append, hname, Option.some_or]

/-- No two counters have the same name and labels. -/
theorem key_injective (h : c.key = c'.key) : c = c' := by
  have hletter : c.letter = c'.letter := by
    have hkey := congrArg (·[11]?) h
    rwa [getElem?_key, getElem?_key, Option.some.injEq] at hkey
  cases c with
  | errors label =>
      cases c' with
      | errors label' =>
          have hlabel : label.toList = label'.toList := by
            simpa [key, labels, name, String.toList_append] using h
          rw [String.toList_inj.mp hlabel]
      | _ => simp [letter] at hletter
  | _ =>
      cases c' with
      | _ => first | rfl | simp [letter] at hletter

/-- The name and the labels are written without blanks. -/
def Plain (c : Counter) : Prop :=
  ' ' ∉ c.key

/-! ## Reading -/

/-- The value on a line, if it is that of the counter. -/
def valueOn? (c : Counter) (line : String) : Option Nat :=
  ((c.key ++ [' ']).isPrefixOf? line.toList).bind (Numeral.natural? 10)

/-- The value of the counter on the lines, zero where it has none. -/
def readOff (c : Counter) (lines : List String) : Nat :=
  (lines.findSome? c.valueOn?).getD 0

end Counter

namespace Metrics

def typeLine (name : String) : String :=
  s!"# TYPE {name} counter"

def valueLine (entry : Counter × Nat) : String :=
  s!"{entry.1.name}{entry.1.labels} {entry.2}"

theorem mem_lines_iff {line : String} : line ∈ m.lines ↔
    (∃ name ∈ m.names, line = typeLine name) ∨ ∃ entry ∈ m.values, line = valueLine entry := by
  rw [lines, List.mem_flatMap]
  constructor
  · rintro ⟨name, hname, hline⟩
    rcases List.mem_cons.mp hline with rfl | hline
    · exact .inl ⟨name, hname, rfl⟩
    · obtain ⟨entry, hmem, rfl⟩ := List.mem_map.mp hline
      obtain ⟨hin, he⟩ := List.mem_filter.mp hmem
      refine .inr ⟨entry, hin, ?_⟩
      rw [← beq_iff_eq.mp he]
      rfl
  · rintro (⟨name, hname, rfl⟩ | ⟨entry, hin, rfl⟩)
    · exact ⟨name, hname, List.mem_cons_self⟩
    · refine ⟨entry.1.name, ?_, List.mem_cons_of_mem _ (List.mem_map.mpr ⟨entry, ?_, rfl⟩)⟩
      · exact List.mem_eraseDups.mpr (List.mem_map_of_mem hin)
      · exact List.mem_filter.mpr ⟨hin, beq_self_eq_true _⟩

theorem toList_valueLine (entry : Counter × Nat) :
    (valueLine entry).toList = entry.1.key ++ ' ' :: Numeral.ofNat entry.2 := by
  have htext (s : String) : ToString.toString s = s := rfl
  simp [valueLine, Counter.key, Numeral.ofNat, htext]

theorem exists_typeLine (name : String) : ∃ rest, (typeLine name).toList = '#' :: rest := by
  have htext (s : String) : ToString.toString s = s := rfl
  exact ⟨" TYPE ".toList ++ (name.toList ++ " counter".toList), by simp [typeLine, htext]⟩

/-- Where there are lines, a comment is the first. -/
theorem exists_unlines_lines (h : m.lines ≠ []) :
    ∃ rest, Text.unlines (m.lines.map String.toList) = '#' :: rest := by
  obtain ⟨name, more, hfirst⟩ : ∃ name more, m.lines = typeLine name :: more := by
    rw [lines] at h ⊢
    cases hnames : m.names with
    | nil => exact absurd (by rw [hnames]; rfl) h
    | cons name names => exact ⟨name, _, rfl⟩
  obtain ⟨rest, hrest⟩ := exists_typeLine name
  rw [hfirst, List.map_cons, hrest]
  exact ⟨_, rfl⟩

theorem valueOn?_typeLine (c : Counter) (name : String) : c.valueOn? (typeLine name) = none := by
  cases hread : (c.key ++ [' ']).isPrefixOf? (typeLine name).toList with
  | none => rw [Counter.valueOn?, hread, Option.bind_none]
  | some rest =>
      obtain ⟨more, hline⟩ := exists_typeLine name
      have hfirst : (c.key ++ [' '] ++ rest).head? = some '#' := by
        rw [List.append_eq_of_isPrefixOf?_eq_some hread, hline, List.head?_cons]
      rw [List.head?_append, List.head?_append, c.head?_key] at hfirst
      simp at hfirst

/-- The line of a counter is a value of that counter alone. -/
theorem valueOn?_valueLine (hc : c.Plain) (hentry : entry.1.Plain) :
    c.valueOn? (valueLine entry) = if entry.1 = c then some entry.2 else none := by
  have hfirst {key : List Char} (h : ' ' ∉ key) (rest : List Char) :
      (key ++ ' ' :: rest).takeWhile (· != ' ') = key := by
    rw [List.takeWhile_append_of_pos, List.takeWhile_cons_of_neg (by simp), List.append_nil]
    intro d hd
    exact bne_iff_ne.mpr fun he => h (he ▸ hd)
  split
  case isTrue he =>
    have hread : (c.key ++ [' ']).isPrefixOf? (valueLine entry).toList =
        some (Numeral.ofNat entry.2) :=
      List.isPrefixOf?_eq_some_iff_append_eq.mpr (by simp [toList_valueLine, he])
    rw [Counter.valueOn?, hread, Option.bind_some, Numeral.natural?_ofNat]
  case isFalse hne =>
    cases hread : (c.key ++ [' ']).isPrefixOf? (valueLine entry).toList with
    | none => rw [Counter.valueOn?, hread, Option.bind_none]
    | some rest =>
        have hsame := List.append_eq_of_isPrefixOf?_eq_some hread
        rw [toList_valueLine, List.append_assoc, List.singleton_append] at hsame
        have hkey := congrArg (List.takeWhile (· != ' ')) hsame
        rw [hfirst hc, hfirst hentry] at hkey
        exact absurd (Counter.key_injective hkey).symm hne

/-- What is read off the lines is what was counted. -/
theorem readOff_lines {counts : List (Counter × Nat)} (h : Tallies m counts)
    (hplain : ∀ entry ∈ m.values, entry.1.Plain) (hc : c.Plain) :
    c.readOff m.lines = tally c counts := by
  rw [Counter.readOff]
  -- a counter with counts would have a line with its value
  cases hfind : m.lines.findSome? c.valueOn? with
  | none =>
      have hno := List.findSome?_eq_none_iff.mp hfind
      refine (tally_eq_zero ?_).symm
      intro hin
      have hmem := (h.mem c _).mpr ⟨hin, rfl⟩
      have hline := hno _ (mem_lines_iff.mpr (.inr ⟨_, hmem, rfl⟩))
      rw [valueOn?_valueLine hc (hplain _ hmem), if_pos rfl] at hline
      exact nomatch hline
  | some n =>
      obtain ⟨line, hline, hn⟩ := List.exists_of_findSome?_eq_some hfind
      rcases mem_lines_iff.mp hline with ⟨name, _, rfl⟩ | ⟨entry, hmem, rfl⟩
      · exact nomatch (valueOn?_typeLine c name).symm.trans hn
      · rw [valueOn?_valueLine hc (hplain _ hmem)] at hn
        split at hn
        case isTrue he =>
          obtain rfl := Option.some.inj hn
          exact ((h.mem c entry.2).mp (he ▸ hmem)).2
        case isFalse => exact nomatch hn

end Metrics

/-! ## Counters of events -/

namespace Heading

def labels : List String :=
  ["unsupported-opcode", "addressing-overflow", "immutable-destination", "carry-chain-broken",
    "invalid-operand", "resource-limit", "table-error", "parse-error", "config-error", "io-error",
    "worker-panicked"]

theorem label_mem (h : Heading) : h.label ∈ labels := by
  cases h <;> simp [label, labels]

theorem nodup_labels : labels.Nodup := by decide

theorem plain_of_mem_labels {label : String} (h : label ∈ labels) :
    (Counter.errors label).Plain := by
  have table : labels.all (fun label => !(Counter.errors label).key.contains ' ') = true := by
    decide
  simpa [Counter.Plain] using List.all_eq_true.mp table label h

end Heading

theorem Counter.plain_of_no_labels (h : c.labels = "") : c.Plain := by
  cases c with
  | errors label => simp [labels] at h
  | _ => simp only [Plain]; decide

theorem Event.plain_counts {e : Event} {count : Counter × Nat} (h : count ∈ e.counts) :
    count.1.Plain := by
  unfold Event.counts at h
  split at h
  case h_1 =>
    obtain rfl := List.mem_singleton.mp h
    exact Counter.plain_of_no_labels rfl
  case h_2 =>
    obtain rfl := List.mem_singleton.mp h
    exact Counter.plain_of_no_labels rfl
  case h_3 =>
    rcases List.mem_pair.mp h with rfl | rfl
    · exact Counter.plain_of_no_labels rfl
    · exact Counter.plain_of_no_labels rfl
  case h_4 e =>
    obtain rfl := List.mem_singleton.mp h
    exact Heading.plain_of_mem_labels e.heading.label_mem
  case h_5 => exact nomatch h

theorem Metrics.plain_ofEvents (events : List Event) :
    ∀ entry ∈ (Metrics.ofEvents events).values, entry.1.Plain := by
  intro entry hmem
  obtain ⟨hin, _⟩ := ((tallies_ofEvents events).mem entry.1 entry.2).mp hmem
  obtain ⟨count, hcount, he⟩ := List.mem_map.mp hin
  obtain ⟨e, _, hcounts⟩ := List.mem_flatMap.mp hcount
  exact he ▸ Event.plain_counts hcounts

theorem readOff_ofEvents (events : List Event) (hc : c.Plain) :
    c.readOff (Metrics.ofEvents events).lines = tally c (events.flatMap Event.counts) :=
  Metrics.readOff_lines (tallies_ofEvents events) (Metrics.plain_ofEvents events) hc

end TwoAddress
