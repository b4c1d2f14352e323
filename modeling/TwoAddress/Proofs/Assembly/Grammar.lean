/-
# `Proofs.Assembly.Grammar` — what a term of an address spells

Between its brackets an address is a sum, and each term of it spells a register, a
register times a scale or a number (`SpellsPart`). A term has no sign of its own, the
signs before it are taken together when the sum is cut, so the numbers are rows of
digits, decimal or hexadecimal, and no register or scale has a plus sign. A term is read
exactly as the part that it spells (`part_eq_ok_iff`).
-/
import TwoAddress.Proofs.Assembly.Cut
import TwoAddress.Proofs.Text.Integer

namespace TwoAddress

open Numeral Text

namespace Numeral

variable {ds text : List Char} {i : Int}

theorem Sign.eq_missing {s : Sign} {rest : List Char}
    (h : ∀ c ∈ s.render ++ rest, Assembly.isSign c = false) : s = .missing := by
  cases s with
  | missing => rfl
  | plus => exact absurd (h '+' List.mem_cons_self) (by decide)
  | minus => exact absurd (h '-' List.mem_cons_self) (by decide)

theorem signedValue_missing (base : Nat) (ds : List Char) :
    signedValue base .missing ds = rowValue base ds :=
  Int.one_mul _

theorem Spells.of_free (h : Spells text i) (hfree : ∀ c ∈ text, Assembly.isSign c = false) :
    (Row 10 text ∧ i = rowValue 10 text) ∨
      ∃ ds, text = '0' :: 'x' :: ds ∧ Row 16 ds ∧ i = rowValue 16 ds := by
  cases h with
  | negated => exact absurd (hfree '-' List.mem_cons_self) (by decide)
  | plain h =>
      cases h with
      | decimal s hr =>
          obtain rfl := Sign.eq_missing hfree
          exact .inl ⟨hr, signedValue_missing 10 _⟩
      | hexadecimal s hr =>
          obtain rfl := Sign.eq_missing fun c hc =>
            hfree c (List.mem_cons_of_mem _ (List.mem_cons_of_mem _ hc))
          exact .inr ⟨_, rfl, hr, signedValue_missing 16 _⟩

theorem uint8?_eq_some_iff_row {b : UInt8} (h : ∀ rest, ds ≠ '+' :: rest) :
    Numeral.uint8? ds = some b ↔ Row 10 ds ∧ rowValue 10 ds = b.toNat := by
  rw [Numeral.uint8?.eq_2 ds h, Option.bind_eq_some_iff]
  constructor
  · rintro ⟨n, hn, hb⟩
    obtain ⟨hr, rfl⟩ := (natural?_eq_some_iff (by decide)).mp hn
    exact ⟨hr, (Int.natCast_inj.mp (uint8?_eq_some_iff.mp hb)).symm⟩
  · rintro ⟨hr, hb⟩
    refine ⟨_, (natural?_eq_some_iff (by decide)).mpr ⟨hr, rfl⟩, ?_⟩
    rw [hb, uint8?_toNat]

end Numeral

namespace Assembly

variable {whole term text ds : List Char}

/-! ## Terms -/

theorem register?_eq_ok_iff {r : Reg} :
    register? text = some (.ok r) ↔
      ∃ ds, text = 'R' :: ds ∧ Row 10 ds ∧ rowValue 10 ds = r.index.toNat := by
  constructor
  · intro h
    unfold register? at h
    split at h
    case h_1 ds =>
      split at h
      case isTrue => exact nomatch h
      case isFalse hds =>
        have hplus : ∀ rest, ds ≠ '+' :: rest := by
          rintro rest rfl
          exact hds rfl
        split at h
        case h_1 n hn =>
          cases h
          exact ⟨ds, rfl, (uint8?_eq_some_iff_row hplus).mp hn⟩
        case h_2 => exact nomatch h
    case h_2 => exact nomatch h
  · rintro ⟨ds, rfl, hr, hvalue⟩
    have hdigits := row_ten_iff.mp hr
    have hempty : ds.isEmpty = false := by simpa using hr.ne_nil
    have hall : ds.all Char.isDigit = true := List.all_eq_true.mpr hdigits.isDigit
    have hread : Numeral.uint8? ds = some r.index :=
      (uint8?_eq_some_iff_row (hr.not_sign (by decide)).2).mpr ⟨hr, hvalue⟩
    simp only [register?, hempty, hall, hread]
    rfl

/-- The part of an address that a term spells, its sign apart. -/
inductive SpellsPart : List Char → Sum.Part → Prop
  | register {ds : List Char} {r : Reg} : Row 10 ds → rowValue 10 ds = r.index.toNat →
      SpellsPart ('R' :: ds) (.register r)
  | scaled {ds ks : List Char} {x : ScaledReg} :
      Row 10 ds → rowValue 10 ds = x.reg.index.toNat →
      Row 10 ks → rowValue 10 ks = x.scale.toNat →
      SpellsPart ('R' :: (ds ++ '*' :: ks)) (.scaled x)
  | decimal {ds : List Char} : Row 10 ds → rowValue 10 ds < 2 ^ 63 →
      SpellsPart ds (.number (rowValue 10 ds))
  | hexadecimal {ds : List Char} : Row 16 ds → rowValue 16 ds < 2 ^ 63 →
      SpellsPart ('0' :: 'x' :: ds) (.number (rowValue 16 ds))

theorem eq_of_span {p : Char → Bool} {w rest : List Char} (h : term.span p = (w, rest)) :
    term = w ++ rest := by
  rw [List.span_eq_takeWhile_dropWhile, Prod.mk.injEq] at h
  rw [← h.1, ← h.2, List.takeWhile_append_dropWhile]

theorem bne_star_of_row {base : Nat} (hbase : base ≤ 16) (h : Row base ds) :
    ∀ c ∈ ds, (c != '*') = true :=
  fun c hc => bne_iff_ne.mpr (h.ne hbase (by decide) c hc)

theorem bne_star_of_register (h : Row 10 ds) : ∀ c ∈ 'R' :: ds, (c != '*') = true :=
  List.forall_mem_cons.mpr ⟨by decide, bne_star_of_row (by decide) h⟩

theorem part_of_int64 {v : Int64} (hstar : ∀ c ∈ term, (c != '*') = true)
    (hreg : register? term = none) (hv : Numeral.int64? term = some v) :
    Sum.part whole term = .ok (.number v.toInt) := by
  simp only [Sum.part, span_of_forall hstar, hreg, hv]

theorem exists_int64 {n : Nat} (h : n < 2 ^ 63) : ∃ v : Int64, v.toInt = n :=
  exists_toInt_eq_iff.mpr ⟨by omega, by omega⟩

/-- What a term without signs is read as is what it spells. -/
theorem spellsPart_of_part {p : Sum.Part} (hfree : ∀ c ∈ term, isSign c = false)
    (h : Sum.part whole term = .ok p) : SpellsPart term p := by
  unfold Sum.part at h
  split at h
  case h_1 reg ks hspan =>
    obtain rfl := eq_of_span hspan
    have hplus : ∀ rest, ks ≠ '+' :: rest := by
      rintro rest rfl
      exact absurd (hfree '+' (by simp)) (by decide)
    split at h
    case h_1 => exact nomatch h
    case h_2 => exact nomatch h
    case h_3 => exact nomatch h
    case h_4 r k hr hk =>
      cases h
      obtain ⟨ds, rfl, hds, hr⟩ := register?_eq_ok_iff.mp hr
      obtain ⟨hks, hk⟩ := (uint8?_eq_some_iff_row hplus).mp hk
      exact .scaled hds hr hks hk
  case h_2 =>
    split at h
    case h_1 r hr =>
      cases h
      obtain ⟨ds, rfl, hds, hr⟩ := register?_eq_ok_iff.mp hr
      exact .register hds hr
    case h_2 => exact nomatch h
    case h_3 =>
      split at h
      case h_1 v hv =>
        cases h
        have hbound := v.toInt_lt
        rcases (int64?_iff_spells.mp hv).of_free hfree with ⟨hr, hvalue⟩ | ⟨ds, rfl, hr, hvalue⟩
        · rw [hvalue] at hbound ⊢
          exact .decimal hr (by omega)
        · rw [hvalue] at hbound ⊢
          exact .hexadecimal hr (by omega)
      case h_2 => exact nomatch h

theorem SpellsPart.part_eq {p : Sum.Part} (h : SpellsPart term p) :
    Sum.part whole term = .ok p := by
  cases h with
  | @register ds r hds hr =>
      have hread := register?_eq_ok_iff.mpr ⟨ds, rfl, hds, hr⟩
      simp only [Sum.part, span_of_forall (bne_star_of_register hds), hread]
  | @scaled ds ks x hds hr hks hk =>
      have hread : register? ('R' :: ds) = some (.ok x.reg) :=
        register?_eq_ok_iff.mpr ⟨ds, rfl, hds, hr⟩
      have hscale : Numeral.uint8? ks = some x.scale :=
        (uint8?_eq_some_iff_row (hks.not_sign (by decide)).2).mpr ⟨hks, hk⟩
      have hspan : ('R' :: (ds ++ '*' :: ks)).span (· != '*') = ('R' :: ds, '*' :: ks) :=
        span_append_cons (bne_star_of_register hds) (by decide)
      simp only [Sum.part, hspan, hread, hscale]
  | decimal hr hbound =>
      obtain ⟨v, hv⟩ := exists_int64 hbound
      have hspells : Spells term v.toInt := by
        rw [hv, ← signedValue_missing]
        exact .plain (.decimal .missing hr)
      rw [← hv]
      exact part_of_int64 (bne_star_of_row (by decide) hr)
        (register?_of_digits (row_ten_iff.mp hr)) (int64?_iff_spells.mpr hspells)
  | @hexadecimal ds hr hbound =>
      obtain ⟨v, hv⟩ := exists_int64 hbound
      have hspells : Spells ('0' :: 'x' :: ds) v.toInt := by
        rw [hv, ← signedValue_missing]
        exact .plain (.hexadecimal .missing hr)
      have hstar : ∀ c ∈ '0' :: 'x' :: ds, (c != '*') = true :=
        List.forall_mem_cons.mpr ⟨by decide,
          List.forall_mem_cons.mpr ⟨by decide, bne_star_of_row (by decide) hr⟩⟩
      rw [← hv]
      exact part_of_int64 hstar rfl (int64?_iff_spells.mpr hspells)

/-- A term without signs is read as the part that it spells. -/
theorem part_eq_ok_iff {p : Sum.Part} (hfree : ∀ c ∈ term, isSign c = false) :
    Sum.part whole term = .ok p ↔ SpellsPart term p :=
  ⟨spellsPart_of_part hfree, SpellsPart.part_eq⟩

theorem SpellsPart.unique {p q : Sum.Part} (hp : SpellsPart term p) (hq : SpellsPart term q) :
    p = q := by
  have hread : Sum.part [] term = .ok p := hp.part_eq
  exact Except.ok.inj (hread.symm.trans hq.part_eq)

end Assembly

end TwoAddress
