/-
# `Proofs.Carry.Chain` — chains by the places of a block

The scan for carries that are still needed runs from the end of a block, and
the tracker runs from its start. What both are about is said here by places
alone: which link stands where (`linkAt`), which one is the nearest before a
place (`Nearest`), and whether the next one from a place on reads a carry
(`Awaited`). `demanded_drop_iff` is the meeting point: what the backward scan
computes for the rest of a block is that the carry is awaited there.

Two kinds of instructions are named by their opcodes: those that leave the carry
alone (`Inert`), and those that read one (`ReadsCarry`), which are the links of that
role and no others (`readsCarry_iff`).
-/
import TwoAddress.Carry.Demand

namespace TwoAddress

/-- An instruction that leaves the carry alone: an address computation, or one
of the two without operands. -/
inductive Instruction.Inert : Instruction → Prop
  | nop : Inert (.nullary .nop)
  | ret : Inert (.nullary .ret)
  | lea (dst src : Operand) : Inert (.binary .lea dst src)

theorem Instruction.preservesCarry_iff {ins : Instruction} :
    ins.preservesCarry = true ↔ ins.Inert := by
  constructor
  · intro h
    cases ins with
    | nullary op =>
        have hmem : [Opcode.nop, Opcode.ret].contains op = true := h
        have hop : op = .nop ∨ op = .ret := by simpa using hmem
        rcases hop with rfl | rfl
        · exact .nop
        · exact .ret
    | binary op dst src =>
        have hbeq : (op == Opcode.lea) = true := h
        obtain rfl := beq_iff_eq.mp hbeq
        exact .lea dst src
    | unary op dst => exact Bool.noConfusion h
    | ternary op dst a b => exact Bool.noConfusion h
    | quaternary op dst base index scale => exact Bool.noConfusion h
  · intro h
    cases h with
    | nop => decide
    | ret => decide
    | lea dst src => rfl

instance decInert : DecidablePred Instruction.Inert :=
  fun _ => decidable_of_iff _ Instruction.preservesCarry_iff

theorem Instruction.preservesCarry_eq_decide (ins : Instruction) :
    ins.preservesCarry = decide ins.Inert := by
  rw [Bool.eq_iff_iff, preservesCarry_iff, decide_eq_true_iff]

/-- Reads the carry that a link before has left. -/
def Instruction.ReadsCarry : Instruction → Prop
  | binary op _ _ => op = .adc ∨ op = .sbb
  | ternary op _ _ _ => op = .adc3 ∨ op = .sbb3
  | _ => False

namespace Carry

/-- The link at a place of a block, if there is one. -/
def linkAt (block : List Instruction) (i : Nat) : Option Link :=
  block[i]?.bind Link.of?

/-- The nearest link before place `i` is `l`, at place `j`. -/
structure Nearest (block : List Instruction) (i j : Nat) (l : Link) : Prop where
  before : j < i
  link : linkAt block j = some l
  between : ∀ k, j < k → k < i → linkAt block k = none

/-- The next link from place `i` on reads a carry. -/
def Awaited (block : List Instruction) (i : Nat) : Prop :=
  ∃ n l, i ≤ n ∧ linkAt block n = some l ∧ l.role = .consume ∧
    ∀ k, i ≤ k → k < n → linkAt block k = none

variable {block : List Instruction} {i : Nat} {l : Link}

theorem linkAt_eq_some_iff :
    linkAt block i = some l ↔ ∃ ins, block[i]? = some ins ∧ Link.of? ins = some l :=
  Option.bind_eq_some_iff

theorem linkAt_of_getElem? {ins : Instruction} (h : block[i]? = some ins) :
    linkAt block i = Link.of? ins := by
  rw [linkAt, h]
  rfl

theorem linkAt_lt_length (h : linkAt block i = some l) : i < block.length := by
  obtain ⟨ins, hins, _⟩ := linkAt_eq_some_iff.mp h
  exact (List.getElem?_eq_some_iff.mp hins).1

theorem Link.consumes_iff : l.consumes = true ↔ l.role = .consume := by
  simp [consumes]

theorem Link.of?_ternary {op3 : Opcode .ternary} {dst a b : Operand}
    (h : Link.of? (.ternary op3 dst a b) = some l) :
    op3.ternaryToBinary? = some l.opcode ∧ l.role = .consume := by
  obtain ⟨hl, hc⟩ := Option.filter_eq_some_iff.mp h
  obtain ⟨op, hop, hof⟩ := Option.bind_eq_some_iff.mp hl
  rw [← ofOpcode?_eq_some_iff.mp hof] at hop
  exact ⟨hop, consumes_iff.mp hc⟩

theorem readsCarry_iff {ins : Instruction} :
    ins.ReadsCarry ↔ ∃ l, Link.of? ins = some l ∧ l.role = .consume := by
  constructor
  · intro h
    cases ins with
    | nullary op => exact h.elim
    | unary op dst => exact h.elim
    | quaternary op dst base index scale => exact h.elim
    | binary op dst src =>
        rcases h with rfl | rfl
        · exact ⟨⟨.consume, .add⟩, rfl, rfl⟩
        · exact ⟨⟨.consume, .sub⟩, rfl, rfl⟩
    | ternary op3 dst a b =>
        rcases h with rfl | rfl
        · exact ⟨⟨.consume, .add⟩, rfl, rfl⟩
        · exact ⟨⟨.consume, .sub⟩, rfl, rfl⟩
  · rintro ⟨l, h, hrole⟩
    have hop : l.opcode = .adc ∨ l.opcode = .sbb := by
      rcases l with ⟨_ | _, _ | _⟩
      · exact nomatch hrole
      · exact nomatch hrole
      · exact .inl rfl
      · exact .inr rfl
    cases ins with
    | nullary op => exact nomatch h
    | unary op dst => exact nomatch h
    | quaternary op dst base index scale => exact nomatch h
    | binary op dst src =>
        obtain rfl := Link.ofOpcode?_eq_some_iff.mp h
        exact hop
    | ternary op3 dst a b =>
        have table : ∀ x ∈ Opcode.ternaryTable,
            x.2 = .adc ∨ x.2 = .sbb → x.1 = .adc3 ∨ x.1 = .sbb3 := by decide
        obtain ⟨hop3, _⟩ := Link.of?_ternary h
        exact table _ (Opcode.mem_of_lookup hop3) hop

theorem Nearest.unique {j j' : Nat} {l' : Link} (h : Nearest block i j l)
    (h' : Nearest block i j' l') : j = j' ∧ l = l' := by
  have hj : j = j' := by
    rcases Nat.lt_trichotomy j j' with hlt | heq | hgt
    · exact absurd (h.between j' hlt h'.before) (by simp [h'.link])
    · exact heq
    · exact absurd (h'.between j hgt h.before) (by simp [h.link])
  subst hj
  exact ⟨rfl, Option.some.inj (h.link.symm.trans h'.link)⟩

theorem Nearest.of_linkAt (h : linkAt block i = some l) : Nearest block (i + 1) i l := by
  refine ⟨Nat.lt_succ_self i, h, ?_⟩
  intro k hik hki
  omega

/-- Either some link stands before a place, and one is the nearest, or none
does. -/
theorem nearest_or_none (block : List Instruction) (i : Nat) :
    (∃ j l, Nearest block i j l) ∨ ∀ j < i, linkAt block j = none := by
  induction i with
  | zero =>
      right
      intro j hj
      exact absurd hj (Nat.not_lt_zero j)
  | succ i ih =>
      cases h : linkAt block i with
      | some l => exact .inl ⟨i, l, .of_linkAt h⟩
      | none =>
          rcases ih with ⟨j, l, hn⟩ | hnone
          · refine .inl ⟨j, l, Nat.lt_succ_of_lt hn.before, hn.link, ?_⟩
            intro k hjk hki
            rcases Nat.lt_succ_iff_lt_or_eq.mp hki with hlt | rfl
            · exact hn.between k hjk hlt
            · exact h
          · refine .inr ?_
            intro j hj
            rcases Nat.lt_succ_iff_lt_or_eq.mp hj with hlt | rfl
            · exact hnone j hlt
            · exact h

theorem Nearest.later {j n : Nat} (h : Nearest block i j l) (hin : i ≤ n)
    (hnone : ∀ k, i ≤ k → k < n → linkAt block k = none) : Nearest block n j l := by
  refine ⟨Nat.lt_of_lt_of_le h.before hin, h.link, ?_⟩
  intro k hjk hkn
  rcases Nat.lt_or_ge k i with hlt | hge
  · exact h.between k hjk hlt
  · exact hnone k hge hkn

theorem Nearest.succ {j : Nat} (h : Nearest block i j l) (hi : linkAt block i = none) :
    Nearest block (i + 1) j l := by
  refine h.later (Nat.le_succ i) ?_
  intro k hik hki
  obtain rfl : i = k := Nat.le_antisymm hik (Nat.le_of_lt_succ hki)
  exact hi

theorem Nearest.of_succ {j : Nat} (h : Nearest block (i + 1) j l) (hi : linkAt block i = none) :
    Nearest block i j l := by
  have hne : j ≠ i := by
    rintro rfl
    exact nomatch hi.symm.trans h.link
  refine ⟨Nat.lt_of_le_of_ne (Nat.le_of_lt_succ h.before) hne, h.link, ?_⟩
  intro k hjk hki
  exact h.between k hjk (Nat.lt_succ_of_lt hki)

/-! ## Carries that are awaited -/

theorem awaited_of_link (h : linkAt block i = some l) :
    Awaited block i ↔ l.role = .consume := by
  constructor
  · rintro ⟨n, l', hin, hn, hl', hbetween⟩
    rcases Nat.eq_or_lt_of_le hin with rfl | hlt
    · rw [h, Option.some.injEq] at hn
      exact hn ▸ hl'
    · exact absurd (hbetween i (Nat.le_refl i) hlt) (by simp [h])
  · intro hl
    exact ⟨i, l, Nat.le_refl i, h, hl, fun k _ _ => by omega⟩

theorem awaited_of_none (h : linkAt block i = none) :
    Awaited block i ↔ Awaited block (i + 1) := by
  constructor
  · rintro ⟨n, l, hin, hn, hl, hbetween⟩
    have hne : i ≠ n := by
      rintro rfl
      simp [h] at hn
    refine ⟨n, l, by omega, hn, hl, ?_⟩
    intro k hik hkn
    exact hbetween k (by omega) hkn
  · rintro ⟨n, l, hin, hn, hl, hbetween⟩
    refine ⟨n, l, by omega, hn, hl, ?_⟩
    intro k hik hkn
    rcases Nat.eq_or_lt_of_le hik with rfl | hlt
    · exact h
    · exact hbetween k hlt hkn

theorem not_awaited_of_length_le (h : block.length ≤ i) : ¬ Awaited block i := by
  rintro ⟨n, l, hin, hn, _⟩
  have := linkAt_lt_length hn
  omega

/-- The scan from the end finds a carry needed exactly where it is awaited. The
induction is on the rest of the block, as in the scan. -/
theorem demanded_drop_iff (block : List Instruction) (i : Nat) :
    demanded (block.drop i) = true ↔ Awaited block i := by
  induction hrest : block.drop i generalizing i with
  | nil =>
      have hlen := List.drop_eq_nil_iff.mp hrest
      simp [not_awaited_of_length_le hlen]
  | cons ins rest ih =>
      have hins : block[i]? = some ins := by
        rw [← List.head?_drop, hrest]
        rfl
      have hnext : block.drop (i + 1) = rest := by
        rw [← List.tail_drop, hrest]
        rfl
      rw [demanded_cons]
      cases hl : Link.of? ins with
      | some l =>
          have hat : linkAt block i = some l := (linkAt_of_getElem? hins).trans hl
          exact Link.consumes_iff.trans (awaited_of_link hat).symm
      | none =>
          have hat : linkAt block i = none := (linkAt_of_getElem? hins).trans hl
          exact (ih (i + 1) hnext).trans (awaited_of_none hat).symm

end Carry

end TwoAddress
