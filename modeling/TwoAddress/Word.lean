/-
# `Word` — machine words of exact integers

Every sum and product that leads to an address or an immediate is computed
exactly, in `Int`, and turned into a word at the end. The conversions here
answer only when the word holds that very value (`uint8?_eq_some_iff`,
`int32?_eq_some_iff`, `int64?_eq_some_iff`), so nothing wraps.
-/

namespace TwoAddress

def uint8? (i : Int) : Option UInt8 :=
  if 0 ≤ i ∧ i < 0x100 then some (UInt8.ofNat i.toNat) else none

def int32? (i : Int) : Option Int32 :=
  if -0x80000000 ≤ i ∧ i < 0x80000000 then some (Int32.ofInt i) else none

def int64? (i : Int) : Option Int64 :=
  if -0x8000000000000000 ≤ i ∧ i < 0x8000000000000000 then some (Int64.ofInt i) else none

theorem uint8?_eq_some_iff {i : Int} {b : UInt8} : uint8? i = some b ↔ (b.toNat : Int) = i := by
  have := b.toNat_lt
  rw [uint8?]
  split
  case isTrue h =>
    rw [Option.some.injEq, ← UInt8.toNat_inj, UInt8.toNat_ofNat_of_lt' (by grind)]
    omega
  case isFalse h => exact ⟨by simp, fun e => absurd ⟨by omega, by omega⟩ h⟩

theorem int32?_eq_some_iff {i : Int} {w : Int32} : int32? i = some w ↔ w.toInt = i := by
  rw [int32?]
  split
  case isTrue h =>
    rw [Option.some.injEq, ← Int32.toInt_inj, Int32.toInt_ofInt_of_le h.1 h.2, eq_comm]
  case isFalse h =>
    exact ⟨by simp, fun e => absurd (e ▸ ⟨w.le_toInt, w.toInt_lt⟩) h⟩

theorem int64?_eq_some_iff {i : Int} {w : Int64} : int64? i = some w ↔ w.toInt = i := by
  rw [int64?]
  split
  case isTrue h =>
    rw [Option.some.injEq, ← Int64.toInt_inj, Int64.toInt_ofInt_of_le h.1 h.2, eq_comm]
  case isFalse h =>
    exact ⟨by simp, fun e => absurd (e ▸ ⟨w.le_toInt, w.toInt_lt⟩) h⟩

@[simp] theorem uint8?_toNat (b : UInt8) : uint8? (b.toNat : Int) = some b :=
  uint8?_eq_some_iff.mpr rfl

@[simp] theorem int32?_toInt (w : Int32) : int32? w.toInt = some w :=
  int32?_eq_some_iff.mpr rfl

@[simp] theorem int64?_toInt (w : Int64) : int64? w.toInt = some w :=
  int64?_eq_some_iff.mpr rfl

end TwoAddress
