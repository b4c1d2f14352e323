/-
# `Proofs.Assembly.Summands` — which texts are addresses, and what they stand for

Which texts are addresses is said here without reading: the text can be cut at its
signs, each term spells a summand (`SpellsSum`), and the summands fit into an address
(`Addressable`). The machine gives each summand a value, and an address stands for the
sum of the values.

Reading goes from left to right and fills the fields of the address as it goes, so
where a register ends up depends on what came before it. `Sum.Adds` lists all that one
step can do. Two facts about it carry over to the whole sum: a step takes up room for
exactly what it adds (`Sum.Adds.room_iff`), and adds exactly its value
(`Sum.Adds.value`). The order of the summands matters to the first only for numbers,
where every sum on the way has to fit a word.
-/
import Mathlib.Data.List.Forall2
import TwoAddress.Proofs.Assembly.Grammar
import TwoAddress.Proofs.Machine.ScaledSum

namespace TwoAddress.Assembly

open Numeral

variable {whole text : List Char}

/-! ## Summands -/

/-- A part of an address with its sign. -/
structure Summand where
  negative : Bool
  part : Sum.Part
deriving DecidableEq, Repr

namespace Summand

/-- A register, scaled or not. -/
def isRegister (s : Summand) : Bool :=
  match s.part with
  | .number _ => false
  | _ => true

def isScaled (s : Summand) : Bool :=
  match s.part with
  | .scaled _ => true
  | _ => false

/-- What the summand contributes to the displacement. -/
def number (s : Summand) : Int :=
  match s.part with
  | .number n => if s.negative then -n else n
  | _ => 0

end Summand

/-- What a part stands for, its sign apart. -/
def Sum.Part.value (σ : Machine.State) : Sum.Part → Machine.Word
  | .register r => σ.regs r
  | .scaled x => σ.regs x.reg * Machine.word x.scale.toNat
  | .number n => Machine.word n

def Summand.value (σ : Machine.State) (s : Summand) : Machine.Word :=
  if s.negative then -s.part.value σ else s.part.value σ

/-- The summands fit into an address. -/
structure Addressable (ss : List Summand) : Prop where
  positive : ∀ s ∈ ss, s.isRegister = true → s.negative = false
  registers_le : ss.countP Summand.isRegister ≤ 2
  scaled_le : ss.countP Summand.isScaled ≤ 1
  /-- From left to right the numbers add up without leaving a word. -/
  fits : ∀ front, front <+: ss → Fits 64 (front.map Summand.number).sum
  disp : IsDisp (ss.map Summand.number).sum

/-- The term spells the summand. -/
def Term.Spells (t : Term) (s : Summand) : Prop :=
  s.negative = t.negative ∧ SpellsPart t.text s.part

/-- Blanks left out, the text can be cut into terms that spell the summands. -/
def SpellsSum (text : List Char) (ss : List Summand) : Prop :=
  ∃ chunks, Cut (text.filter (!Text.isBlank ·)) chunks ∧
    List.Forall₂ Term.Spells (chunks.map Chunk.toTerm) ss

variable {s : Summand} {ss ss' : List Summand} {t : Term} {ts : List Term} {sum sum' : Sum}
  {σ : Machine.State}

theorem Summand.isRegister_of_isScaled (h : s.isScaled = true) : s.isRegister = true := by
  obtain ⟨negative, part⟩ := s
  cases part with
  | scaled x => rfl
  | register r => exact nomatch h
  | number n => exact nomatch h

theorem countP_isScaled_le (ss : List Summand) :
    ss.countP Summand.isScaled ≤ ss.countP Summand.isRegister :=
  List.countP_mono_left fun _ _ => Summand.isRegister_of_isScaled

theorem Term.Spells.unique {s s' : Summand} (h : t.Spells s) (h' : t.Spells s') : s = s' := by
  obtain ⟨negative, part⟩ := s
  obtain ⟨negative', part'⟩ := s'
  obtain ⟨rfl, hpart⟩ := h
  obtain ⟨rfl, hpart'⟩ := h'
  exact congrArg (Summand.mk t.negative) (hpart.unique hpart')

/-! ## Adding a summand -/

namespace Sum

/-- All that adding a summand can do to what has been read. -/
inductive Adds : Sum → Summand → Sum → Prop
  | base {index : Option ScaledReg} {disp : Int} {r : Reg} :
      Adds ⟨none, index, disp⟩ ⟨false, .register r⟩ ⟨some r, index, disp⟩
  | index {b r : Reg} {disp : Int} :
      Adds ⟨some b, none, disp⟩ ⟨false, .register r⟩ ⟨some b, some ⟨r, 1⟩, disp⟩
  | scaled {base : Option Reg} {disp : Int} {x : ScaledReg} :
      Adds ⟨base, none, disp⟩ ⟨false, .scaled x⟩ ⟨base, some x, disp⟩
  | number {base : Option Reg} {index : Option ScaledReg} {disp n : Int} {negative : Bool} :
      Fits 64 (disp + if negative then -n else n) →
      Adds ⟨base, index, disp⟩ ⟨negative, .number n⟩
        ⟨base, index, disp + if negative then -n else n⟩

theorem exists_int64?_iff {i : Int} : (∃ v, TwoAddress.int64? i = some v) ↔ Fits 64 i := by
  rw [← exists_toInt_eq_iff]
  exact exists_congr fun v => int64?_eq_some_iff

theorem add_eq_ok_iff :
    sum.add whole s.negative s.part = .ok sum' ↔ Adds sum s sum' := by
  constructor
  · intro h
    obtain ⟨base, index, disp⟩ := sum
    obtain ⟨negative, part⟩ := s
    cases part with
    | register r =>
        rcases negative with _ | _
        · rcases base with _ | b
          · cases h
            exact .base
          · rcases index with _ | x
            · cases h
              exact .index
            · cases h
        · cases h
    | scaled x =>
        rcases negative with _ | _
        · rcases index with _ | y
          · cases h
            exact .scaled
          · cases h
        · cases h
    | number n =>
        rw [add] at h
        split at h
        case h_1 v hv =>
          cases h
          rw [int64?_eq_some_iff.mp hv]
          exact .number (exists_int64?_iff.mp ⟨v, hv⟩)
        case h_2 => cases h
  · intro h
    cases h with
    | base => rfl
    | index => rfl
    | scaled => rfl
    | number hfits =>
        obtain ⟨v, hv⟩ := exists_int64?_iff.mpr hfits
        simp only [add, hv, int64?_eq_some_iff.mp hv]

/-- What has been read stands for a sum as well. -/
def value (σ : Machine.State) (sum : Sum) : Machine.Word :=
  sum.base.elim 0 σ.regs +
    (sum.index.elim 0 fun x => σ.regs x.reg * Machine.word x.scale.toNat) +
    Machine.word sum.disp

theorem Adds.value (h : Adds sum s sum') : sum'.value σ = sum.value σ + s.value σ := by
  -- the plain register that becomes an index is multiplied by one
  have hone : Machine.word ((1 : UInt8).toNat : Int) = 1 := rfl
  cases h with
  | @number _ _ _ _ negative _ =>
      cases negative <;>
        simp only [Sum.value, Summand.value, Part.value, Bool.false_eq_true, if_true, if_false,
          Machine.word_add, Machine.word_neg] <;> ring
  | _ =>
      simp only [Sum.value, Summand.value, Part.value, Option.elim_none, Option.elim_some,
        Bool.false_eq_true, if_false, hone]
      ring

/-- The summands fit beside what has been read. -/
structure Room (sum : Sum) (ss : List Summand) : Prop where
  positive : ∀ s ∈ ss, s.isRegister = true → s.negative = false
  registers_le : sum.base.isSome.toNat + sum.index.isSome.toNat +
    ss.countP Summand.isRegister ≤ 2
  scaled_le : sum.index.isSome.toNat + ss.countP Summand.isScaled ≤ 1
  fits : ∀ front, front <+: ss → Fits 64 (sum.disp + (front.map Summand.number).sum)

theorem Adds.disp (h : Adds sum s sum') : sum'.disp = sum.disp + s.number := by
  cases h with
  | number => rfl
  | _ => exact (Int.add_zero _).symm

theorem Adds.positive (h : Adds sum s sum') (hs : s.isRegister = true) : s.negative = false := by
  cases h with
  | number => exact nomatch hs
  | _ => rfl

theorem Adds.registers (h : Adds sum s sum') :
    sum'.base.isSome.toNat + sum'.index.isSome.toNat =
      sum.base.isSome.toNat + sum.index.isSome.toNat + s.isRegister.toNat := by
  cases h with
  | @base index =>
      show 1 + index.isSome.toNat = 0 + index.isSome.toNat + 1
      omega
  | _ => rfl

theorem Adds.index_eq (h : Adds sum s sum') :
    sum'.index.isSome.toNat = sum.index.isSome.toNat + s.isScaled.toNat ∨
      (sum.base.isSome = true ∧ sum.index = none ∧ s.isScaled = false ∧ s.isRegister = true) := by
  cases h with
  | index => exact .inr ⟨rfl, rfl, rfl, rfl⟩
  | scaled => exact .inl rfl
  | _ => exact .inl rfl

theorem countP_cons_toNat (p : Summand → Bool) :
    (s :: ss).countP p = ss.countP p + (p s).toNat := by
  rw [List.countP_cons]
  cases p s <;> rfl

theorem fits_cons_iff {d : Int} :
    (∀ front, front <+: s :: ss → Fits 64 (d + (front.map Summand.number).sum)) ↔
      Fits 64 d ∧ ∀ front, front <+: ss →
        Fits 64 (d + s.number + (front.map Summand.number).sum) := by
  constructor
  · intro h
    refine ⟨?_, ?_⟩
    · have hnil := h [] List.nil_prefix
      rwa [List.map_nil, List.sum_nil, Int.add_zero] at hnil
    · intro front hfront
      have hcons := h (s :: front) (List.cons_prefix_cons.mpr ⟨rfl, hfront⟩)
      rwa [List.map_cons, List.sum_cons, ← Int.add_assoc] at hcons
  · rintro ⟨hnil, hcons⟩ front hfront
    rcases List.prefix_cons_iff.mp hfront with rfl | ⟨rest, rfl, hrest⟩
    · rwa [List.map_nil, List.sum_nil, Int.add_zero]
    · rw [List.map_cons, List.sum_cons, ← Int.add_assoc]
      exact hcons rest hrest

/-- Adding a summand takes up exactly its room. A register beside a base takes the field
of the index, and no scaled register is left then, for it would be a third register. -/
theorem Adds.room_iff (h : Adds sum s sum') (hfits : Fits 64 sum.disp) :
    Room sum (s :: ss) ↔ Room sum' ss := by
  have hregisters := h.registers
  have hindex := h.index_eq
  have hscaled_le := countP_isScaled_le ss
  constructor
  · intro hroom
    have hreg := hroom.registers_le
    have hsc := hroom.scaled_le
    rw [countP_cons_toNat] at hreg hsc
    refine ⟨fun u hu => hroom.positive u (List.mem_cons_of_mem s hu), by omega, ?_, ?_⟩
    · rcases hindex with hindex | ⟨hbase, hnone, -, hs⟩
      · omega
      · rw [hbase, hnone, hs] at hreg hregisters
        simp only [Option.isSome_none, Bool.toNat_true, Bool.toNat_false] at hreg hregisters
        have hone := Bool.toNat_le sum'.index.isSome
        omega
    · rw [h.disp]
      exact (fits_cons_iff.mp hroom.fits).2
  · intro hroom
    have hreg := hroom.registers_le
    have hsc := hroom.scaled_le
    refine ⟨List.forall_mem_cons.mpr ⟨h.positive, hroom.positive⟩, ?_, ?_, ?_⟩
    · rw [countP_cons_toNat]
      omega
    · rw [countP_cons_toNat]
      rcases hindex with hindex | ⟨-, hnone, hs, -⟩
      · omega
      · rw [hnone, hs]
        simp only [Option.isSome_none, Bool.toNat_false]
        omega
    · rw [fits_cons_iff, ← h.disp]
      exact ⟨hfits, hroom.fits⟩

theorem exists_adds_of_room (h : Room sum (s :: ss)) : ∃ sum', Adds sum s sum' := by
  obtain ⟨base, index, disp⟩ := sum
  obtain ⟨negative, part⟩ := s
  have hpositive := h.positive _ List.mem_cons_self
  have hreg := h.registers_le
  have hsc := h.scaled_le
  rw [countP_cons_toNat] at hreg hsc
  cases part with
  | number n =>
      have hfits := (fits_cons_iff.mp h.fits).2 [] List.nil_prefix
      rw [List.map_nil, List.sum_nil, Int.add_zero] at hfits
      exact ⟨_, .number hfits⟩
  | register r =>
      obtain rfl := hpositive rfl
      rcases base with _ | b
      · exact ⟨_, .base⟩
      · rcases index with _ | x
        · exact ⟨_, .index⟩
        · change 1 + 1 + (_ + 1) ≤ 2 at hreg
          omega
  | scaled x =>
      obtain rfl := hpositive rfl
      rcases index with _ | y
      · exact ⟨_, .scaled⟩
      · change 1 + (_ + 1) ≤ 1 at hsc
        omega

/-! ## Adding all of them -/

inductive AddsAll : Sum → List Summand → Sum → Prop
  | nil {sum : Sum} : AddsAll sum [] sum
  | cons {sum sum' last : Sum} {s : Summand} {ss : List Summand} :
      Adds sum s sum' → AddsAll sum' ss last → AddsAll sum (s :: ss) last

theorem Adds.fits (h : Adds sum s sum') (hfits : Fits 64 sum.disp) : Fits 64 sum'.disp := by
  cases h with
  | number hsum => exact hsum
  | _ => exact hfits

theorem room_nil (hfits : Fits 64 sum.disp) : Room sum [] := by
  refine ⟨List.forall_mem_nil _, ?_, ?_, ?_⟩
  · exact Nat.add_le_add (Bool.toNat_le _) (Bool.toNat_le _)
  · exact Bool.toNat_le _
  · intro front hfront
    rw [List.prefix_nil.mp hfront, List.map_nil, List.sum_nil, Int.add_zero]
    exact hfits

/-- The summands can be added exactly if they fit. -/
theorem exists_addsAll_iff (hfits : Fits 64 sum.disp) :
    (∃ last, AddsAll sum ss last) ↔ Room sum ss := by
  induction ss generalizing sum with
  | nil => exact iff_of_true ⟨sum, .nil⟩ (room_nil hfits)
  | cons s ss ih =>
      constructor
      · rintro ⟨last, hlast⟩
        cases hlast with
        | cons hs hss => exact (hs.room_iff hfits).mpr ((ih (hs.fits hfits)).mp ⟨last, hss⟩)
      · intro hroom
        obtain ⟨sum', hs⟩ := exists_adds_of_room hroom
        obtain ⟨last, hss⟩ := (ih (hs.fits hfits)).mpr ((hs.room_iff hfits).mp hroom)
        exact ⟨last, .cons hs hss⟩

theorem AddsAll.disp (h : AddsAll sum ss sum') :
    sum'.disp = sum.disp + (ss.map Summand.number).sum := by
  induction h with
  | nil => exact (Int.add_zero _).symm
  | cons hs _ ih => rw [ih, hs.disp, List.map_cons, List.sum_cons, Int.add_assoc]

theorem AddsAll.value (h : AddsAll sum ss sum') :
    sum'.value σ = sum.value σ + (ss.map (Summand.value σ)).sum := by
  induction h with
  | nil => exact (BitVec.add_zero _).symm
  | cons hs _ ih => rw [ih, hs.value, List.map_cons, List.sum_cons, add_assoc]

/-- Terms without signs are added up by adding the summands that they spell. -/
theorem addTerms_eq_ok_iff (hfree : ∀ t ∈ ts, ∀ c ∈ t.text, isSign c = false) :
    sum.addTerms whole ts = .ok sum' ↔
      ∃ ss, List.Forall₂ Term.Spells ts ss ∧ AddsAll sum ss sum' := by
  induction ts generalizing sum with
  | nil =>
      constructor
      · intro h
        cases h
        exact ⟨[], .nil, .nil⟩
      · rintro ⟨ss, hss, hadds⟩
        cases hss
        cases hadds
        rfl
  | cons t ts ih =>
      obtain ⟨ht, hts⟩ := List.forall_mem_cons.mp hfree
      simp only [addTerms, bind_eq_ok_iff, part_eq_ok_iff ht, ih hts]
      constructor
      · rintro ⟨p, hp, next, hnext, ss, hss, hadds⟩
        exact ⟨⟨t.negative, p⟩ :: ss, .cons ⟨rfl, hp⟩ hss, .cons (add_eq_ok_iff.mp hnext) hadds⟩
      · rintro ⟨ss, hss, hadds⟩
        cases hss with
        | cons hs hss =>
            cases hadds with
            | cons hnext hadds =>
                have hread : sum.add whole _ _ = .ok _ := add_eq_ok_iff.mpr hnext
                rw [hs.1] at hread
                exact ⟨_, hs.2, _, hread, _, hss, hadds⟩

theorem toAddress_eq_ok_iff {a : Address} :
    sum.toAddress whole = .ok a ↔
      sum.base = a.base ∧ sum.index = a.index ∧ sum.disp = a.disp.toInt := by
  obtain ⟨base, index, d⟩ := a
  rw [toAddress]
  split
  case h_1 disp hdisp =>
    rw [int32?_eq_some_iff] at hdisp
    rw [Except.ok.injEq, Address.mk.injEq, ← Int32.toInt_inj, hdisp]
  case h_2 hnone =>
    constructor
    · intro h
      cases h
    · rintro ⟨-, -, hd⟩
      rw [int32?_eq_some_iff.mpr hd.symm] at hnone
      cases hnone

end Sum

/-! ## Addresses -/

theorem addressable_iff :
    Addressable ss ↔ Sum.empty.Room ss ∧ IsDisp (ss.map Summand.number).sum := by
  have hzero (i : Int) : Sum.empty.disp + i = i := Int.zero_add i
  constructor
  · rintro ⟨hpositive, hregisters, hscaled, hfits, hdisp⟩
    refine ⟨⟨hpositive, ?_, ?_, ?_⟩, hdisp⟩
    · exact (Nat.zero_add _).trans_le hregisters
    · exact (Nat.zero_add _).trans_le hscaled
    · intro front hfront
      rw [hzero]
      exact hfits front hfront
  · rintro ⟨⟨hpositive, hregisters, hscaled, hfits⟩, hdisp⟩
    refine ⟨hpositive, ?_, ?_, ?_, hdisp⟩
    · exact (Nat.zero_add _).symm.trans_le hregisters
    · exact (Nat.zero_add _).symm.trans_le hscaled
    · intro front hfront
      have hsum := hfits front hfront
      rwa [hzero] at hsum

theorem free_of_cut {chunks : List Chunk} (h : Cut text chunks) :
    ∀ t ∈ chunks.map Chunk.toTerm, ∀ c ∈ t.text, isSign c = false :=
  List.forall_mem_map.mpr fun k hk => (h.proper k hk).free

theorem SpellsSum.unique (h : SpellsSum text ss) (h' : SpellsSum text ss') : ss = ss' := by
  obtain ⟨chunks, hcut, hss⟩ := h
  obtain ⟨chunks', hcut', hss'⟩ := h'
  have hterms : chunks'.map Chunk.toTerm = chunks.map Chunk.toTerm :=
    Option.some.inj (hcut'.termsAfter?.symm.trans hcut.termsAfter?)
  rw [hterms] at hss'
  have hone : Relator.RightUnique Term.Spells := fun _ _ _ h h' => h.unique h'
  exact List.right_unique_forall₂' hone hss hss'

/-- What an address is read from, and by which steps. -/
theorem address_eq_ok_iff {a : Address} :
    address text = .ok a ↔
      ∃ ss sum, SpellsSum text ss ∧ Sum.empty.AddsAll ss sum ∧ sum.toAddress text = .ok a := by
  constructor
  · intro h
    rw [address] at h
    split at h
    case h_1 => cases h
    case h_2 ts hts =>
      obtain ⟨chunks, hcut, rfl⟩ := terms?_eq_some_iff.mp hts
      obtain ⟨sum, hsum, ha⟩ := bind_eq_ok_iff.mp h
      obtain ⟨ss, hss, hadds⟩ := (Sum.addTerms_eq_ok_iff (free_of_cut hcut)).mp hsum
      exact ⟨ss, sum, ⟨chunks, hcut, hss⟩, hadds, ha⟩
  · rintro ⟨ss, sum, ⟨chunks, hcut, hss⟩, hadds, ha⟩
    have hread : terms? text = some (chunks.map Chunk.toTerm) :=
      terms?_eq_some_iff.mpr ⟨chunks, hcut, rfl⟩
    have hsum : Sum.empty.addTerms text (chunks.map Chunk.toTerm) = .ok sum :=
      (Sum.addTerms_eq_ok_iff (free_of_cut hcut)).mpr ⟨ss, hss, hadds⟩
    rw [address, hread]
    exact bind_eq_ok_iff.mpr ⟨sum, hsum, ha⟩

theorem exists_address_iff (text : List Char) :
    (∃ a, address text = .ok a) ↔ ∃ ss, SpellsSum text ss ∧ Addressable ss := by
  have hzero : Fits 64 Sum.empty.disp := ⟨by decide, by decide⟩
  simp only [address_eq_ok_iff, addressable_iff]
  constructor
  · rintro ⟨a, ss, sum, hss, hadds, ha⟩
    obtain ⟨-, -, hdisp⟩ := Sum.toAddress_eq_ok_iff.mp ha
    rw [hadds.disp, show Sum.empty.disp = 0 from rfl, Int.zero_add] at hdisp
    exact ⟨ss, hss, (Sum.exists_addsAll_iff hzero).mp ⟨sum, hadds⟩, hdisp ▸ isDisp_toInt a.disp⟩
  · rintro ⟨ss, hss, hroom, hdisp⟩
    obtain ⟨sum, hadds⟩ := (Sum.exists_addsAll_iff hzero).mpr hroom
    obtain ⟨d, hd⟩ := exists_int32?_iff.mpr hdisp
    have hsum : sum.disp = d.toInt := by
      rw [hadds.disp, int32?_eq_some_iff.mp hd]
      exact Int.zero_add _
    exact ⟨⟨sum.base, sum.index, d⟩, ss, sum, hss, hadds,
      Sum.toAddress_eq_ok_iff.mpr ⟨rfl, rfl, hsum⟩⟩

/-- An address stands for the sum of the summands that it was read from. -/
theorem address_value {a : Address} (h : address text = .ok a) (hss : SpellsSum text ss)
    (σ : Machine.State) : σ.address a = (ss.map (Summand.value σ)).sum := by
  obtain ⟨read, sum, hread, hadds, ha⟩ := address_eq_ok_iff.mp h
  obtain ⟨hbase, hindex, hdisp⟩ := Sum.toAddress_eq_ok_iff.mp ha
  obtain rfl := hss.unique hread
  have hvalue : σ.address a = sum.value σ := by
    rw [Machine.State.address, Sum.value, hbase, hindex, hdisp]
  have hempty : Sum.empty.value σ = 0 := rfl
  rw [hvalue, hadds.value, hempty, zero_add]

/-- A text is an address exactly if it spells summands that fit into one. It spells
these alone, and in every state the address stands for their sum. -/
theorem address_spells (text : List Char) :
    ((∃ a, address text = .ok a) ↔ ∃ ss, SpellsSum text ss ∧ Addressable ss) ∧
      ∀ ss, SpellsSum text ss →
        (∀ ss', SpellsSum text ss' → ss' = ss) ∧
        ∀ a, address text = .ok a → ∀ σ : Machine.State,
          σ.address a = (ss.map (Summand.value σ)).sum :=
  ⟨exists_address_iff text, fun _ hss => ⟨fun _ h => h.unique hss, fun _ h σ =>
    address_value h hss σ⟩⟩

/-- Two minus signs are a plus, and the second plain register is an index. -/
example : address "0x10 - -R1+R2 - 8".toList = .ok ⟨some ⟨1⟩, some ⟨⟨2⟩, 1⟩, 8⟩ := by
  decide +kernel

end TwoAddress.Assembly
