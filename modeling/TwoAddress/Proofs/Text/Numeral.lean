/-
# `Proofs.Text.Numeral` — numbers are read as they were written

A number is written as a row of decimal digits (`Digits`), with a minus sign
before it if it is negative. The readers of numbers look for more than that:
for signs, for `0x`, for hexadecimal digits. On a row of decimal digits all of
it comes down to `natural?`, and the value read is the exact one, whatever the
length (`natural?_of_digits`).
-/
import TwoAddress.Text.Numeral

namespace TwoAddress.Numeral

variable {c : Char} {ds : List Char}

/-! ## Rows of digits -/

/-- A row of decimal digits, at least one of them. -/
structure Digits (ds : List Char) : Prop where
  ne_nil : ds ≠ []
  isDigit : ∀ c ∈ ds, c.isDigit = true

theorem digits_ofNat (n : Nat) : Digits (ofNat n) :=
  ⟨Nat.toDigits_ne_nil, fun _ h => Nat.isDigit_of_mem_toDigits (by decide) (by decide) h⟩

theorem ne_of_isDigit {d : Char} (h : c.isDigit = true) (hd : d.isDigit = false) : c ≠ d := by
  rintro rfl
  exact nomatch h.symm.trans hd

theorem Digits.bne {d : Char} (h : Digits ds) (hd : d.isDigit = false) :
    ∀ c ∈ ds, (c != d) = true :=
  fun c hc => bne_iff_ne.mpr (ne_of_isDigit (h.isDigit c hc) hd)

theorem digit?_of_isDigit (h : c.isDigit = true) :
    digit? 10 c = some (c.toNat - '0'.toNat) := by
  have hnine : c.toNat ≤ '9'.toNat := (Char.isDigit_iff_toNat.mp h).2
  have hlt : c.toNat - '0'.toNat < 10 :=
    Nat.lt_of_le_of_lt (Nat.sub_le_sub_right hnine _) (by decide)
  simp only [digit?, h, if_true, if_pos hlt]

/-- The digits before count ten times for each digit that follows. -/
theorem digitsAfter?_of_digits (h : ∀ c ∈ ds, c.isDigit = true) (high : Nat) :
    digitsAfter? 10 high ds = some (Nat.ofDigitChars 10 ds high) := by
  induction ds generalizing high with
  | nil => rfl
  | cons c rest ih =>
      obtain ⟨hc, hrest⟩ := List.forall_mem_cons.mp h
      rw [digitsAfter?, digit?_of_isDigit hc, Nat.ofDigitChars_cons, Nat.mul_comm]
      exact ih hrest _

theorem natural?_of_digits (h : Digits ds) : natural? 10 ds = some (Nat.ofDigitChars 10 ds 0) := by
  cases ds with
  | nil => exact absurd rfl h.ne_nil
  | cons c rest => exact digitsAfter?_of_digits h.isDigit 0

@[simp] theorem natural?_ofNat (n : Nat) : natural? 10 (ofNat n) = some n := by
  rw [natural?_of_digits (digits_ofNat n), ofNat, Nat.ofDigitChars_ten_toDigits]

/-! ## Signs and prefixes

A row of digits begins with none of the characters that the readers look for. -/

theorem signed?_of_digits (h : Digits ds) :
    signed? 10 ds = (natural? 10 ds).map fun n : Nat => (n : Int) := by
  unfold signed?
  split
  case h_1 => exact absurd (h.isDigit '-' List.mem_cons_self) (by decide)
  case h_2 => exact absurd (h.isDigit '+' List.mem_cons_self) (by decide)
  case h_3 => cases natural? 10 ds <;> rfl

theorem magnitude?_of_digits (h : Digits ds) : magnitude? ds = signed? 10 ds := by
  unfold magnitude?
  split
  case h_1 => exact absurd (h.isDigit 'x' (List.mem_cons_of_mem _ List.mem_cons_self)) (by decide)
  case h_2 => rfl

theorem integer?_of_digits (h : Digits ds) : integer? ds = magnitude? ds := by
  unfold integer?
  split
  case h_1 => exact absurd (h.isDigit '-' List.mem_cons_self) (by decide)
  case h_2 => rfl

theorem uint8?_of_digits (h : Digits ds) :
    uint8? ds = (natural? 10 ds).bind fun n => TwoAddress.uint8? n := by
  unfold uint8?
  split
  case h_1 => exact absurd (h.isDigit '+' List.mem_cons_self) (by decide)
  case h_2 => rfl

/-! ## Reading what was written -/

theorem magnitude?_ofNat (n : Nat) : magnitude? (ofNat n) = some (n : Int) := by
  have h := digits_ofNat n
  rw [magnitude?_of_digits h, signed?_of_digits h, natural?_ofNat, Option.map_some]

theorem integer?_ofNat (n : Nat) : integer? (ofNat n) = some (n : Int) := by
  rw [integer?_of_digits (digits_ofNat n), magnitude?_ofNat]

theorem integer?_ofInt (i : Int) : integer? (ofInt i) = some i := by
  rw [ofInt]
  split
  case isTrue h =>
    rw [integer?, magnitude?_ofNat, Option.map_some]
    congr 1
    omega
  case isFalse h =>
    rw [integer?_ofNat]
    congr 1
    omega

@[simp] theorem int64?_ofInt (v : Int64) : int64? (ofInt v.toInt) = some v := by
  rw [int64?, integer?_ofInt, Option.bind_some, int64?_toInt]

theorem int64?_ofNat (n : Nat) : int64? (ofNat n) = TwoAddress.int64? (n : Int) := by
  rw [int64?, integer?_ofNat, Option.bind_some]

@[simp] theorem uint8?_ofNat (b : UInt8) : uint8? (ofNat b.toNat) = some b := by
  rw [uint8?_of_digits (digits_ofNat b.toNat), natural?_ofNat, Option.bind_some, uint8?_toNat]

end TwoAddress.Numeral
