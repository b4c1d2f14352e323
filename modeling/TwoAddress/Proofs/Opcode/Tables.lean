/-
# `Proofs.Opcode.Tables` — what the check of the tables is worth

A table passes exactly if it is sound (`checkTable_eq_ok_iff`). Looking an operation up
in a sound table succeeds if the operation has a name and only then
(`Sound.exists_lookup_iff`), and what is found is the same operation by its name
(`Sound.namedAfter`). The tables that are there pass, so later proofs about operations
that lose operands need not go through their entries again.
-/
import TwoAddress.Error
import TwoAddress.Proofs.Except

namespace TwoAddress.Opcode

variable {s t : Tier} {table : List (Opcode s × Opcode t)} {entry : Opcode s × Opcode t}
  {source op : Opcode s} {target : Opcode t}

/-! ## Names -/

/-- The operation has the name of the other with its number of operands behind it. -/
def NamedAfter (source : Opcode s) (target : Opcode t) : Prop :=
  ∃ name, target.name? = some name ∧ source.name? = some s!"{name}{s.arity}"

theorem isNamedAfter_iff : isNamedAfter source target = true ↔ NamedAfter source target := by
  rw [isNamedAfter, NamedAfter]
  cases source.name? <;> cases target.name? <;> simp

theorem NamedAfter.declared (h : NamedAfter source target) :
    source.isDeclared = true ∧ target.isDeclared = true := by
  obtain ⟨name, htarget, hsource⟩ := h
  exact ⟨Option.isSome_of_mem hsource, Option.isSome_of_mem htarget⟩

theorem mem_declared_of_name? {name : String} (h : op.name? = some name) :
    (op, name) ∈ declared s :=
  mem_of_lookup h

theorem forall_declared_iff {p : Opcode s → Prop} :
    (∀ entry ∈ declared s, p entry.1) ↔ ∀ op : Opcode s, op.isDeclared = true → p op := by
  constructor
  · intro h op hop
    obtain ⟨name, hname⟩ := Option.isSome_iff_exists.mp hop
    exact h _ (mem_declared_of_name? hname)
  · intro h entry hentry
    refine h entry.1 ?_
    rw [isDeclared, name?, Option.isSome_map, List.find?_isSome]
    exact ⟨entry, hentry, beq_self_eq_true _⟩

/-! ## Checks -/

/-- Every operation with a name has one entry, and the entries go by names. -/
structure Sound (table : List (Opcode s × Opcode t)) : Prop where
  once : ∀ op, op.isDeclared = true → table.countP (·.1 == op) = 1
  named : ∀ entry ∈ table, NamedAfter entry.1 entry.2

theorem checkCount_eq_ok_iff : checkCount table op = .ok () ↔ table.countP (·.1 == op) = 1 := by
  simp [checkCount]

theorem checkNames_eq_ok_iff : checkNames entry = .ok () ↔ NamedAfter entry.1 entry.2 := by
  simp [checkNames, isNamedAfter_iff]

theorem checkEntry_eq_ok_iff : checkEntry entry = .ok () ↔ NamedAfter entry.1 entry.2 := by
  rw [checkEntry]
  split
  case isTrue hsource =>
    refine ⟨fun h => (nomatch h), fun h => ?_⟩
    simp [h.declared.1] at hsource
  case isFalse =>
    split
    case isTrue htarget =>
      refine ⟨fun h => (nomatch h), fun h => ?_⟩
      simp [h.declared.2] at htarget
    case isFalse => exact checkNames_eq_ok_iff

/-- A table passes if it is sound, and no other does. -/
theorem checkTable_eq_ok_iff : checkTable table = .ok () ↔ Sound table := by
  have honce : (declared s).forM (fun entry => checkCount table entry.1) = .ok () ↔
      ∀ op, op.isDeclared = true → table.countP (·.1 == op) = 1 := by
    rw [forM_eq_ok_iff, ← forall_declared_iff]
    simp only [checkCount_eq_ok_iff]
  have hnamed : table.forM checkEntry = .ok () ↔ ∀ entry ∈ table, NamedAfter entry.1 entry.2 := by
    simp only [forM_eq_ok_iff, checkEntry_eq_ok_iff]
  rw [checkTable, bind_eq_ok_iff]
  exact ⟨fun ⟨_, h, h'⟩ => ⟨honce.mp h, hnamed.mp h'⟩,
    fun h => ⟨(), honce.mpr h.once, hnamed.mpr h.named⟩⟩

theorem checkPartialTable_eq_ok_iff :
    checkPartialTable table = .ok () ↔ ∀ entry ∈ table, NamedAfter entry.1 entry.2 := by
  simp only [checkPartialTable, forM_eq_ok_iff, checkNames_eq_ok_iff]

namespace Sound

theorem namedAfter (h : Sound table) (hlookup : (table.find? (·.1 == op)).map (·.2) = some target) :
    NamedAfter op target :=
  h.named _ (mem_of_lookup hlookup)

/-- The operations that have a name are those that are found. -/
theorem exists_lookup_iff (h : Sound table) :
    (∃ target, (table.find? (·.1 == op)).map (·.2) = some target) ↔ op.isDeclared = true := by
  constructor
  · rintro ⟨target, hlookup⟩
    exact (h.namedAfter hlookup).declared.1
  · intro hop
    have hfound : (table.find? (·.1 == op)).isSome = true :=
      List.find?_isSome.mpr (List.countP_pos_iff.mp (h.once op hop ▸ Nat.one_pos))
    obtain ⟨entry, hentry⟩ := Option.isSome_iff_exists.mp hfound
    exact ⟨entry.2, by rw [hentry, Option.map_some]⟩

end Sound

/-! ## The tables -/

theorem checkTables_eq_ok : checkTables = .ok () := rfl

theorem sound_ternaryTable : Sound ternaryTable := checkTable_eq_ok_iff.mp rfl

theorem sound_quaternaryTable : Sound quaternaryTable := checkTable_eq_ok_iff.mp rfl

theorem named_binaryTable : ∀ entry ∈ binaryTable, NamedAfter entry.1 entry.2 :=
  checkPartialTable_eq_ok_iff.mp rfl

end TwoAddress.Opcode
