/-
# `Proofs.Text.Integer` — which texts are integers, and which integers they are

A text spells an integer if it is a minus sign or none, then `0x` with hexadecimal
digits or decimal digits alone, and before the digits a further sign or none (`Spells`).
The value is that of the digits by their places, times the signs.
Reading follows this grammar character by character (`integer?_eq_some_iff`), and
whether the integer fits a word is asked once, at the end.

It could also be asked at every step. A reader that keeps what it has read in a word,
and gives up as soon as a step leaves that word, gives up on no text that it should
read, as long as its word is wider than the immediate (`int64Within?_eq`). For the
row of digits only ever grows in magnitude, so that a row whose value fits has no
step that does not.
-/
import Mathlib.Data.Nat.Digits.Defs
import Mathlib.Tactic.FinCases
import TwoAddress.Proofs.Text.Numeral

namespace TwoAddress.Numeral

variable {c : Char} {base n : Nat} {i j : Int} {ds text : List Char}

/-! ## Digits -/

/-- The digits in the order of their values, in lower case. -/
def lowerDigits : List Char := "0123456789abcdef".toList

def upperDigits : List Char := "0123456789ABCDEF".toList

/-- The place of a digit among the digits, and sixteen for any other character. -/
def digitValue (c : Char) : Nat :=
  min (lowerDigits.idxOf c) (upperDigits.idxOf c)

theorem mem_digits_of_range
    (h : c.isDigit = true ∨ ('a' ≤ c ∧ c ≤ 'f') ∨ ('A' ≤ c ∧ c ≤ 'F')) :
    c ∈ lowerDigits ++ upperDigits := by
  have hlast : c.toNat < 0x67 := by
    rcases h with h | h | h
    · exact Nat.lt_of_le_of_lt (Char.isDigit_iff_toNat.mp h).2 (by decide)
    · exact Nat.lt_of_le_of_lt (UInt32.le_iff_toNat_le.mp h.2) (by decide)
    · exact Nat.lt_of_le_of_lt (UInt32.le_iff_toNat_le.mp h.2) (by decide)
  have table : ∀ n < 0x67, ((Char.ofNat n).isDigit = true ∨
      ('a' ≤ Char.ofNat n ∧ Char.ofNat n ≤ 'f') ∨ ('A' ≤ Char.ofNat n ∧ Char.ofNat n ≤ 'F')) →
        Char.ofNat n ∈ lowerDigits ++ upperDigits := by decide
  rw [← Char.ofNat_toNat c] at h ⊢
  exact table _ hlast h

theorem digitValue_of_not_mem (h : c ∉ lowerDigits ++ upperDigits) : digitValue c = 16 := by
  obtain ⟨hlower, hupper⟩ := not_or.mp (mt List.mem_append.mpr h)
  rw [digitValue, List.idxOf_eq_length hlower, List.idxOf_eq_length hupper]
  rfl

theorem digit?_eq (c : Char) (h : base ≤ 16) :
    digit? base c = if digitValue c < base then some (digitValue c) else none := by
  by_cases hc : c ∈ lowerDigits ++ upperDigits
  · have table : ∀ d ∈ lowerDigits ++ upperDigits,
        digit? base d = if digitValue d < base then some (digitValue d) else none := by
      intro d hd
      fin_cases hd <;> rfl
    exact table c hc
  · obtain ⟨hdigit, hletter⟩ := not_or.mp (mt mem_digits_of_range hc)
    obtain ⟨ha, hA⟩ := not_or.mp hletter
    rw [digitValue_of_not_mem hc, if_neg (Nat.not_lt.mpr h)]
    simp only [digit?, if_neg hdigit, if_neg ha, if_neg hA, Nat.lt_irrefl, if_false]

/-- A row of digits of a base, at least one of them. -/
structure Row (base : Nat) (ds : List Char) : Prop where
  ne_nil : ds ≠ []
  lt_base : ∀ c ∈ ds, digitValue c < base

theorem Row.ne {d : Char} (h : Row base ds) (hbase : base ≤ 16) (hd : digitValue d = 16) :
    ∀ c ∈ ds, c ≠ d := by
  rintro _ hc rfl
  exact absurd (h.lt_base _ hc) (by omega)

/-- The value of a row of digits: each counts as often as its place says. -/
def rowValue (base : Nat) (ds : List Char) : Nat :=
  Nat.ofDigits base (ds.reverse.map digitValue)

theorem rowValue_cons (base : Nat) (c : Char) (ds : List Char) :
    rowValue base (c :: ds) = digitValue c * base ^ ds.length + rowValue base ds := by
  rw [rowValue, List.reverse_cons, List.map_append, Nat.ofDigits_append, List.map_singleton,
    Nat.ofDigits_singleton, List.length_map, List.length_reverse, Nat.mul_comm, Nat.add_comm]
  rfl

/-- Digits that follow others move those up by their number. -/
theorem digitsAfter?_eq_some_iff (h : base ≤ 16) (high : Nat) :
    digitsAfter? base high ds = some n ↔
      (∀ c ∈ ds, digitValue c < base) ∧ high * base ^ ds.length + rowValue base ds = n := by
  induction ds generalizing high with
  | nil => simp [digitsAfter?, rowValue]
  | cons c ds ih =>
      rw [digitsAfter?, digit?_eq c h, List.forall_mem_cons, rowValue_cons, List.length_cons]
      by_cases hc : digitValue c < base
      · have hvalue : (high * base + digitValue c) * base ^ ds.length + rowValue base ds =
            high * base ^ (ds.length + 1) +
              (digitValue c * base ^ ds.length + rowValue base ds) := by
          rw [Nat.add_mul, Nat.mul_assoc, Nat.pow_succ', Nat.add_assoc]
        rw [if_pos hc, eq_true hc, true_and, ← hvalue]
        exact ih _
      · rw [if_neg hc]
        exact iff_of_false (Option.some_ne_none n).symm fun hall => hc hall.1.1

theorem natural?_eq_some_iff (h : base ≤ 16) :
    natural? base ds = some n ↔ Row base ds ∧ rowValue base ds = n := by
  cases ds with
  | nil =>
      refine iff_of_false (fun hn => nomatch hn) ?_
      rintro ⟨hrow, _⟩
      exact hrow.ne_nil rfl
  | cons c ds =>
      have hafter : natural? base (c :: ds) = some n ↔ _ := digitsAfter?_eq_some_iff h 0
      rw [Nat.zero_mul, Nat.zero_add] at hafter
      refine hafter.trans (and_congr_left fun _ => ?_)
      exact ⟨fun hall => ⟨List.cons_ne_nil c ds, hall⟩, fun hrow => hrow.lt_base⟩

theorem digitValue_lt_ten_iff : digitValue c < 10 ↔ c.isDigit = true := by
  by_cases hc : c ∈ lowerDigits ++ upperDigits
  · have table : (lowerDigits ++ upperDigits).all
        (fun d => decide (digitValue d < 10) == d.isDigit) = true := by decide
    have hvalue : decide (digitValue c < 10) = c.isDigit :=
      beq_iff_eq.mp (List.all_eq_true.mp table c hc)
    rw [← hvalue, decide_eq_true_iff]
  · rw [digitValue_of_not_mem hc]
    exact iff_of_false (by decide) fun h => hc (mem_digits_of_range (.inl h))

theorem row_ten_iff : Row 10 ds ↔ Digits ds :=
  ⟨fun h => ⟨h.ne_nil, fun c hc => digitValue_lt_ten_iff.mp (h.lt_base c hc)⟩,
    fun h => ⟨h.ne_nil, fun c hc => digitValue_lt_ten_iff.mpr (h.isDigit c hc)⟩⟩

/-! ## Signs -/

/-- A sign before digits, which may be missing. -/
inductive Sign where
  | missing
  | plus
  | minus
deriving DecidableEq, Repr

namespace Sign

def render : Sign → List Char
  | missing => []
  | plus => ['+']
  | minus => ['-']

def factor : Sign → Int
  | missing => 1
  | plus => 1
  | minus => -1

end Sign

/-- The integer of a row of digits with a sign before it. -/
def signedValue (base : Nat) (s : Sign) (ds : List Char) : Int :=
  s.factor * rowValue base ds

theorem Row.not_sign (h : Row base ds) (hbase : base ≤ 16) :
    (∀ rest, ds ≠ '-' :: rest) ∧ ∀ rest, ds ≠ '+' :: rest := by
  have hout {d : Char} (hd : digitValue d = 16) (rest : List Char) : ds ≠ d :: rest := by
    rintro rfl
    exact h.ne hbase hd d List.mem_cons_self rfl
  exact ⟨hout (by decide), hout (by decide)⟩

/-- At most one sign is read before the digits. -/
theorem signed?_eq_some_iff (h : base ≤ 16) :
    signed? base text = some i ↔
      ∃ (s : Sign) (ds : List Char),
        text = s.render ++ ds ∧ Row base ds ∧ signedValue base s ds = i := by
  have hrow (ds : List Char) (f : Int → Int) :
      Option.map f (natural? base ds >>= fun n => pure (n : Int)) = some i ↔
        Row base ds ∧ f (rowValue base ds) = i := by
    have hmap : Option.map f (natural? base ds >>= fun n => pure (n : Int)) =
        (natural? base ds).map fun n : Nat => f n := by
      cases natural? base ds <;> rfl
    simp only [hmap, Option.map_eq_some_iff, natural?_eq_some_iff h]
    exact ⟨fun ⟨_, ⟨hr, hn⟩, hf⟩ => ⟨hr, hn ▸ hf⟩, fun ⟨hr, hf⟩ => ⟨_, ⟨hr, rfl⟩, hf⟩⟩
  constructor
  · intro hread
    unfold signed? at hread
    split at hread
    case h_1 ds =>
      obtain ⟨hr, rfl⟩ := (hrow ds _).mp hread
      exact ⟨.minus, ds, rfl, hr, Int.neg_one_mul _⟩
    case h_2 ds =>
      obtain ⟨hr, rfl⟩ := (hrow ds _).mp hread
      exact ⟨.plus, ds, rfl, hr, Int.one_mul _⟩
    case h_3 =>
      obtain ⟨hr, rfl⟩ := (hrow text _).mp hread
      exact ⟨.missing, text, rfl, hr, Int.one_mul _⟩
  · rintro ⟨s, ds, rfl, hr, rfl⟩
    cases s with
    | minus => exact (hrow ds (- ·)).mpr ⟨hr, (Int.neg_one_mul _).symm⟩
    | plus => exact (hrow ds id).mpr ⟨hr, (Int.one_mul _).symm⟩
    | missing =>
        obtain ⟨hminus, hplus⟩ := hr.not_sign h
        show signed? base ds = _
        unfold signed?
        split
        case h_1 rest => exact absurd rfl (hminus rest)
        case h_2 rest => exact absurd rfl (hplus rest)
        case h_3 => exact (hrow ds id).mpr ⟨hr, (Int.one_mul _).symm⟩

/-! ## Integers -/

/-- The number of a text without the minus sign that may stand before all else. -/
inductive SpellsMagnitude : List Char → Int → Prop
  | decimal {ds : List Char} (s : Sign) : Row 10 ds →
      SpellsMagnitude (s.render ++ ds) (signedValue 10 s ds)
  | hexadecimal {ds : List Char} (s : Sign) : Row 16 ds →
      SpellsMagnitude ('0' :: 'x' :: (s.render ++ ds)) (signedValue 16 s ds)

/-- The integer that a text spells. -/
inductive Spells : List Char → Int → Prop
  | plain {body : List Char} {i : Int} : SpellsMagnitude body i → Spells body i
  | negated {body : List Char} {i : Int} : SpellsMagnitude body i → Spells ('-' :: body) (-i)

theorem Row.not_prefixed (h : Row 10 ds) (s : Sign) (rest : List Char) :
    s.render ++ ds ≠ '0' :: 'x' :: rest := by
  have hx {d : Char} {rest : List Char} : ds ≠ d :: 'x' :: rest := by
    rintro rfl
    exact absurd (h.lt_base 'x' (List.mem_cons_of_mem _ List.mem_cons_self)) (by decide)
  cases s with
  | missing => exact hx
  | plus => exact fun heq => nomatch (List.cons.inj heq).1
  | minus => exact fun heq => nomatch (List.cons.inj heq).1

theorem magnitude?_eq_some_iff : magnitude? text = some i ↔ SpellsMagnitude text i := by
  constructor
  · intro hread
    unfold magnitude? at hread
    split at hread
    case h_1 =>
      obtain ⟨s, ds, rfl, hr, rfl⟩ := (signed?_eq_some_iff (by decide)).mp hread
      exact .hexadecimal s hr
    case h_2 =>
      obtain ⟨s, ds, rfl, hr, rfl⟩ := (signed?_eq_some_iff (by decide)).mp hread
      exact .decimal s hr
  · intro h
    cases h with
    | hexadecimal s hr => exact (signed?_eq_some_iff (by decide)).mpr ⟨s, _, rfl, hr, rfl⟩
    | @decimal ds s hr =>
        unfold magnitude?
        split
        case h_1 heq => exact absurd heq (hr.not_prefixed s _)
        case h_2 => exact (signed?_eq_some_iff (by decide)).mpr ⟨s, ds, rfl, hr, rfl⟩

theorem SpellsMagnitude.of_minus (h : SpellsMagnitude ('-' :: text) i) :
    SpellsMagnitude text (-i) := by
  generalize hall : '-' :: text = all at h
  cases h with
  | hexadecimal => exact nomatch (List.cons.inj hall).1
  | @decimal ds s hr =>
      cases s with
      | minus =>
          obtain rfl : text = ds := (List.cons.inj hall).2
          have hvalue : -signedValue 10 .minus text = signedValue 10 .missing text := by
            simp [signedValue, Sign.factor]
          rw [hvalue]
          exact .decimal .missing hr
      | plus => exact nomatch (List.cons.inj hall).1
      | missing => exact absurd hall.symm ((hr.not_sign (by decide)).1 text)

/-- A text is read as the integer that it spells. -/
theorem integer?_eq_some_iff : integer? text = some i ↔ Spells text i := by
  constructor
  · intro hread
    unfold integer? at hread
    split at hread
    case h_1 body =>
      obtain ⟨j, hj, rfl⟩ := Option.map_eq_some_iff.mp hread
      exact .negated (magnitude?_eq_some_iff.mp hj)
    case h_2 => exact .plain (magnitude?_eq_some_iff.mp hread)
  · intro h
    cases h with
    | negated h => exact Option.map_eq_some_iff.mpr ⟨_, magnitude?_eq_some_iff.mpr h, rfl⟩
    | plain h =>
        unfold integer?
        split
        case h_1 body =>
          exact Option.map_eq_some_iff.mpr
            ⟨-i, magnitude?_eq_some_iff.mpr h.of_minus, Int.neg_neg i⟩
        case h_2 => exact magnitude?_eq_some_iff.mpr h

theorem Spells.unique (h : Spells text i) (h' : Spells text j) : i = j :=
  Option.some.inj ((integer?_eq_some_iff.mpr h).symm.trans (integer?_eq_some_iff.mpr h'))

/-! ## Reading within a word -/

/-- The integer is one of a signed word of so many bits. -/
def Fits (bits : Nat) (i : Int) : Prop :=
  -2 ^ (bits - 1) ≤ i ∧ i < 2 ^ (bits - 1)

instance (bits : Nat) (i : Int) : Decidable (Fits bits i) :=
  inferInstanceAs (Decidable (_ ∧ _))

/-- The integer, if it fits a word. -/
def within? (bits : Nat) (i : Int) : Option Int :=
  if Fits bits i then some i else none

/-- The integer of a row of digits read after others, where each product and each sum on
the way has to fit the word. -/
def digitsWithin? (bits base : Nat) (s : Sign) : (high : Int) → List Char → Option Int
  | high, [] => some high
  | high, c :: rest => do
      let d ← digit? base c
      let shifted ← within? bits (high * base)
      digitsWithin? bits base s (← within? bits (shifted + s.factor * d)) rest

/-- The integer of a row of at least one digit, within a word. -/
def rowWithin? (bits base : Nat) (s : Sign) (ds : List Char) : Option Int :=
  if ds.isEmpty then none else digitsWithin? bits base s 0 ds

/-- The integer of a row of digits with at most one sign before it, within a word. -/
def signedWithin? (bits base : Nat) : List Char → Option Int
  | '-' :: ds => rowWithin? bits base .minus ds
  | '+' :: ds => rowWithin? bits base .plus ds
  | ds => rowWithin? bits base .missing ds

/-- The number of a text without the minus sign before all else, within a word. -/
def magnitudeWithin? (bits : Nat) : List Char → Option Int
  | '0' :: 'x' :: digits => signedWithin? bits 16 digits
  | digits => signedWithin? bits 10 digits

/-- The immediate that a text spells, where each step on the way, the negation included,
has to fit a word of so many bits. -/
def int64Within? (bits : Nat) : List Char → Option Int64
  | '-' :: body => do
      let i ← magnitudeWithin? bits body
      TwoAddress.int64? (← within? bits (-i))
  | body => do TwoAddress.int64? (← magnitudeWithin? bits body)

variable {bits m : Nat} {s : Sign}

theorem Fits.mono (h : Fits bits (s.factor * m)) (hle : n ≤ m) : Fits bits (s.factor * n) := by
  obtain ⟨hlow, hhigh⟩ := h
  have hpos : (0 : Int) < 2 ^ (bits - 1) := Int.pow_pos (by decide)
  cases s <;> simp only [Sign.factor, Fits] at * <;> omega

theorem within?_of_fits (h : Fits bits i) : within? bits i = some i :=
  if_pos h

theorem within?_of_not_fits (h : ¬ Fits bits i) : within? bits i = none :=
  if_neg h

/-- Checking each step comes to checking the last: the number grows with every digit, so
that a step that does not fit is followed by no number that does. -/
theorem digitsWithin?_eq (hpos : 0 < base) (hbase : base ≤ 16) (hn : Fits bits (s.factor * n)) :
    digitsWithin? bits base s (s.factor * n) ds =
      (digitsAfter? base n ds).bind fun m => within? bits (s.factor * m) := by
  induction ds generalizing n with
  | nil => exact (within?_of_fits hn).symm
  | cons c rest ih =>
      rw [digitsWithin?, digitsAfter?]
      cases digit? base c with
      | none => rfl
      | some d =>
          have hshift : s.factor * n * base = s.factor * (n * base : Nat) := by
            rw [Int.mul_assoc, Int.natCast_mul]
          have hnext : s.factor * (n * base : Nat) + s.factor * d =
              s.factor * (n * base + d : Nat) := by
            rw [← Int.mul_add, Int.natCast_add]
          by_cases hfits : Fits bits (s.factor * (n * base + d : Nat))
          · have hbefore : Fits bits (s.factor * (n * base : Nat)) :=
              hfits.mono (Nat.le_add_right _ _)
            simp only [Option.bind_eq_bind, Option.bind_some, hshift, within?_of_fits hbefore,
              hnext, within?_of_fits hfits]
            exact ih hfits
          · have hgone : (within? bits (s.factor * (n * base : Nat))).bind (fun shifted =>
                (within? bits (shifted + s.factor * d)).bind fun next =>
                  digitsWithin? bits base s next rest) = none := by
              rw [within?]
              split
              case isTrue => rw [Option.bind_some, hnext, within?_of_not_fits hfits]; rfl
              case isFalse => rfl
            simp only [Option.bind_eq_bind, Option.bind_some, hshift, hgone]
            refine (Option.bind_eq_none_iff.mpr ?_).symm
            intro m hm
            obtain ⟨_, hm⟩ := (digitsAfter?_eq_some_iff hbase _).mp hm
            -- the digits that follow make the number no smaller
            have hle : n * base + d ≤ m := by
              rw [← hm]
              exact Nat.le_trans (Nat.le_mul_of_pos_right _ (Nat.pow_pos hpos))
                (Nat.le_add_right _ _)
            exact within?_of_not_fits fun hfit => hfits (hfit.mono hle)

theorem rowWithin?_eq (hpos : 0 < base) (hbase : base ≤ 16) :
    rowWithin? bits base s ds = (natural? base ds).bind fun m => within? bits (s.factor * m) := by
  cases ds with
  | nil => rfl
  | cons c rest =>
      have hzero : Fits bits (s.factor * (0 : Nat)) := by
        have hword : (0 : Int) < 2 ^ (bits - 1) := Int.pow_pos (by decide)
        simp only [Fits]
        omega
      have hread : digitsWithin? bits base s (s.factor * (0 : Nat)) (c :: rest) = _ :=
        digitsWithin?_eq hpos hbase hzero
      rwa [Int.natCast_zero, Int.mul_zero] at hread

theorem exists_signed (bits base : Nat) (text : List Char) :
    ∃ (s : Sign) (ds : List Char),
      signed? base text = (natural? base ds).map (fun n : Nat => s.factor * n) ∧
        signedWithin? bits base text = rowWithin? bits base s ds := by
  have hmap (ds : List Char) (f g : Int → Int) (hfg : ∀ i, f i = g i) :
      Option.map f (natural? base ds >>= fun n => pure (n : Int)) =
        (natural? base ds).map fun n : Nat => g n := by
    cases natural? base ds with
    | none => rfl
    | some n => exact congrArg some (hfg n)
  unfold signed?
  split
  case h_1 ds => exact ⟨.minus, ds, hmap ds _ _ fun i => (Int.neg_one_mul i).symm, rfl⟩
  case h_2 ds => exact ⟨.plus, ds, hmap ds _ _ fun i => (Int.one_mul i).symm, rfl⟩
  case h_3 hminus hplus =>
    exact ⟨.missing, text, hmap text _ _ fun i => (Int.one_mul i).symm,
      signedWithin?.eq_3 bits base text hminus hplus⟩

theorem signedWithin?_eq (hpos : 0 < base) (hbase : base ≤ 16) :
    signedWithin? bits base text = (signed? base text).bind (within? bits) := by
  obtain ⟨s, ds, hread, hwithin⟩ := exists_signed bits base text
  rw [hread, hwithin, rowWithin?_eq hpos hbase, Option.bind_map]
  rfl

theorem magnitudeWithin?_eq :
    magnitudeWithin? bits text = (magnitude? text).bind (within? bits) := by
  unfold magnitudeWithin?
  split
  case h_1 digits => exact signedWithin?_eq (by decide : 0 < 16) (by decide)
  case h_2 hprefix =>
    rw [magnitude?.eq_2 text hprefix]
    exact signedWithin?_eq (by decide : 0 < 10) (by decide)

theorem fits_of_int64? {v : Int64} (hbits : 64 < bits) (h : TwoAddress.int64? i = some v) :
    Fits bits i ∧ Fits bits (-i) := by
  have hlow := v.le_toInt
  have hhigh := v.toInt_lt
  have hwide : (2 : Int) ^ 64 ≤ 2 ^ (bits - 1) :=
    pow_le_pow_right₀ (by decide) (by omega)
  rw [int64?_eq_some_iff.mp h] at hlow hhigh
  constructor <;> constructor <;> omega

/-- No step on the way to an immediate leaves a wider word. -/
theorem int64Within?_eq (hbits : 64 < bits) : int64Within? bits text = int64? text := by
  have hfits (i : Int) (k : Int → Option Int64) (hk : ∀ v, k i = some v → Fits bits i) :
      (within? bits i).bind k = k i := by
    by_cases h : Fits bits i
    · rw [within?_of_fits h, Option.bind_some]
    · rw [within?_of_not_fits h, Option.bind_none]
      exact (Option.eq_none_iff_forall_ne_some.mpr fun v hv => h (hk v hv)).symm
  have hlast (i : Int) : (within? bits i).bind TwoAddress.int64? = TwoAddress.int64? i :=
    hfits i _ fun v hv => (fits_of_int64? hbits hv).1
  unfold int64Within?
  split
  case h_1 body =>
    rw [magnitudeWithin?_eq, int64?, integer?]
    cases magnitude? body with
    | none => rfl
    | some i =>
        have hnegated : (within? bits i).bind (fun j =>
            (within? bits (-j)).bind TwoAddress.int64?) = TwoAddress.int64? (-i) := by
          simp only [hlast]
          exact hfits i _ fun v hv => Int.neg_neg i ▸ (fits_of_int64? hbits hv).2
        exact hnegated
  case h_2 hminus =>
    rw [magnitudeWithin?_eq, int64?, integer?.eq_2 text hminus]
    cases magnitude? text with
    | none => rfl
    | some i => exact hlast i

theorem int64?_iff_spells {v : Int64} : int64? text = some v ↔ Spells text v.toInt := by
  rw [int64?, Option.bind_eq_some_iff, ← integer?_eq_some_iff]
  constructor
  · rintro ⟨i, hi, hv⟩
    rw [int64?_eq_some_iff.mp hv, hi]
  · exact fun h => ⟨_, h, int64?_toInt v⟩

theorem exists_toInt_eq_iff : (∃ v : Int64, v.toInt = i) ↔ Fits 64 i := by
  constructor
  · rintro ⟨v, rfl⟩
    exact ⟨v.le_toInt, v.toInt_lt⟩
  · rintro ⟨hlow, hhigh⟩
    exact ⟨Int64.ofInt i, Int64.toInt_ofInt_of_le hlow hhigh⟩

/-- A text is read as an immediate exactly if it spells an integer that an immediate
holds, and then as that integer. It spells no other, and it makes no difference if the
integer is put together in a word of 128 bits. Every immediate is read as it is
written. -/
theorem int64?_exact (text : List Char) :
    (∀ v : Int64, int64? text = some v ↔ Spells text v.toInt) ∧
      ((∃ v, int64? text = some v) ↔ ∃ i, Spells text i ∧ Fits 64 i) ∧
      (∀ i j, Spells text i → Spells text j → i = j) ∧
      int64Within? 128 text = int64? text ∧
      ∀ v : Int64, int64? (ofInt v.toInt) = some v := by
  refine ⟨fun v => int64?_iff_spells, ?_, fun i j => Spells.unique,
    int64Within?_eq (by decide), int64?_ofInt⟩
  constructor
  · rintro ⟨v, hv⟩
    exact ⟨v.toInt, int64?_iff_spells.mp hv, exists_toInt_eq_iff.mp ⟨v, rfl⟩⟩
  · rintro ⟨i, hi, hfits⟩
    obtain ⟨v, rfl⟩ := exists_toInt_eq_iff.mpr hfits
    exact ⟨v, int64?_iff_spells.mpr hi⟩

end TwoAddress.Numeral
