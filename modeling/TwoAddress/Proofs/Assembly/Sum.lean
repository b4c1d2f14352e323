/-
# `Proofs.Assembly.Sum` — addresses are read as they were written

What stands between the brackets of a written address is a sum of at most three
terms (`Address.terms`): the base, the index, and the number, in this order. A
sum that is written out is cut into the very same terms again
(`terms?_writeTerms`), for no term holds a sign or a blank.

Added up one after the other, the terms give the address back. Only the index of
scale one has lost its scale in writing; it is added as a plain register, and so
it is the base if there is none (`addTerms_registerTerms`). This is the one place
where the normal form of the address comes in.
-/
import TwoAddress.Assembly.Address
import TwoAddress.Proofs.Assembly.Normal
import TwoAddress.Proofs.Text.Words

namespace TwoAddress.Assembly

open Numeral Text

variable {c : Char} {w : List Char} {t : Term} {ts : List Term}

/-! ## Characters of terms -/

/-- A character of a term that has been written. -/
def TermChar (c : Char) : Prop :=
  c.isDigit = true ∨ c = 'R' ∨ c = '*'

theorem TermChar.solid (h : TermChar c) : Solid c := by
  rcases h with h | rfl | rfl
  · exact solid_of_isDigit h
  · decide
  · decide

theorem not_sign_of_isDigit (h : c.isDigit = true) : isSign c = false := by
  have hplus : c ≠ '+' := ne_of_isDigit h (by decide)
  have hminus : c ≠ '-' := ne_of_isDigit h (by decide)
  simp [isSign, hplus, hminus]

theorem TermChar.not_sign (h : TermChar c) : isSign c = false := by
  rcases h with h | rfl | rfl
  · exact not_sign_of_isDigit h
  · rfl
  · rfl

theorem termChar_ofNat (n : Nat) : ∀ c ∈ ofNat n, TermChar c :=
  fun c h => .inl ((digits_ofNat n).isDigit c h)

theorem termChar_reg (r : Reg) : ∀ c ∈ r.render, TermChar c :=
  List.forall_mem_cons.mpr ⟨.inr (.inl rfl), termChar_ofNat _⟩

theorem termChar_scaled (x : ScaledReg) : ∀ c ∈ x.render, TermChar c := by
  rw [ScaledReg.render, List.forall_mem_append]
  refine ⟨termChar_reg x.reg, ?_⟩
  split
  case isTrue => exact fun c h => nomatch h
  case isFalse => exact List.forall_mem_cons.mpr ⟨.inr (.inr rfl), termChar_ofNat _⟩

theorem bne_star_reg (r : Reg) : ∀ c ∈ r.render, (c != '*') = true :=
  List.forall_mem_cons.mpr ⟨by decide, (digits_ofNat _).bne (by decide)⟩

/-! ## Cutting what was written -/

namespace Term

/-- A term that can be told from the signs around it. -/
structure Plain (t : Term) : Prop where
  ne_nil : t.text ≠ []
  termChar : ∀ c ∈ t.text, TermChar c

/-- A term with its sign before it. -/
def write (t : Term) : List Char :=
  (if t.negative then '-' else '+') :: t.text

end Term

/-- A sum, where the first term has a sign only if it is negative. -/
def writeTerms : List Term → List Char
  | [] => []
  | t :: rest => (if t.negative then ['-'] else []) ++ (t.text ++ rest.flatMap Term.write)

theorem writeTerms_append (h : ts ≠ []) (us : List Term) :
    writeTerms (ts ++ us) = writeTerms ts ++ us.flatMap Term.write := by
  cases ts with
  | nil => exact absurd rfl h
  | cons t rest => simp [writeTerms]

theorem termsAfter?_append (h : ∀ c ∈ w, isSign c = false) (negative : Bool)
    (term rest : List Char) :
    termsAfter? negative term (w ++ rest) = termsAfter? negative (term ++ w) rest := by
  induction w generalizing term with
  | nil => simp
  | cons c w ih =>
      obtain ⟨hc, hw⟩ := List.forall_mem_cons.mp h
      rw [List.cons_append, termsAfter?, if_neg (by simp [hc]), ih hw]
      simp

/-- A term followed by further terms, each with its sign. The induction is on
these: the sign before the next one ends the one that has begun. -/
theorem termsAfter?_write (ht : t.Plain) (hts : ∀ u ∈ ts, u.Plain) :
    termsAfter? t.negative [] (t.text ++ ts.flatMap Term.write) = some (t :: ts) := by
  have hempty (u : Term) (hu : u.Plain) : u.text.isEmpty = false := by
    simp [hu.ne_nil]
  induction ts generalizing t with
  | nil =>
      rw [termsAfter?_append fun c h => (ht.termChar c h).not_sign]
      simp only [List.flatMap_nil, List.nil_append, termsAfter?, hempty t ht, Bool.false_eq_true,
        if_false]
  | cons u rest ih =>
      obtain ⟨hu, hrest⟩ := List.forall_mem_cons.mp hts
      have hnext := ih hu hrest
      rw [termsAfter?_append fun c h => (ht.termChar c h).not_sign, List.nil_append,
        List.flatMap_cons, Term.write, List.cons_append, termsAfter?]
      have hsign : isSign (if u.negative then '-' else '+') = true := by
        cases u.negative <;> decide
      have hminus : ((if u.negative then '-' else '+') == '-') = u.negative := by
        cases u.negative <;> decide
      rw [if_pos hsign, hminus, hnext, if_neg (by simp [ht.ne_nil])]
      rfl

theorem termsAfter?_writeTerms (hne : ts ≠ []) (h : ∀ t ∈ ts, t.Plain) :
    termsAfter? false [] (writeTerms ts) = some ts := by
  cases ts with
  | nil => exact absurd rfl hne
  | cons t rest =>
      obtain ⟨ht, hrest⟩ := List.forall_mem_cons.mp h
      have hwrite := termsAfter?_write ht hrest
      rw [writeTerms]
      cases hneg : t.negative with
      | false =>
          rw [hneg] at hwrite
          exact hwrite
      | true =>
          rw [hneg] at hwrite
          exact hwrite

theorem solid_writeTerms (h : ∀ t ∈ ts, t.Plain) : ∀ c ∈ writeTerms ts, Solid c := by
  have hwrite : ∀ us : List Term, (∀ u ∈ us, u.Plain) → ∀ c ∈ us.flatMap Term.write, Solid c := by
    intro us hus c hc
    obtain ⟨u, hu, hcu⟩ := List.mem_flatMap.mp hc
    rcases List.mem_cons.mp hcu with rfl | hcu
    · cases u.negative <;> decide
    · exact ((hus u hu).termChar c hcu).solid
  cases ts with
  | nil => exact fun c hc => nomatch hc
  | cons t rest =>
      obtain ⟨ht, hrest⟩ := List.forall_mem_cons.mp h
      refine List.forall_mem_append.mpr ⟨?_, List.forall_mem_append.mpr ⟨?_, hwrite rest hrest⟩⟩
      · cases t.negative with
        | false => exact fun c hc => nomatch hc
        | true => exact List.forall_mem_singleton.mpr (by decide)
      · exact fun c hc => (ht.termChar c hc).solid

theorem terms?_writeTerms (hne : ts ≠ []) (h : ∀ t ∈ ts, t.Plain) :
    terms? (writeTerms ts) = some ts := by
  have hkeep : (writeTerms ts).filter (!isBlank ·) = writeTerms ts := by
    refine List.filter_eq_self.mpr ?_
    intro c hc
    simp [(solid_writeTerms h c hc).isBlank]
  rw [terms?, hkeep, termsAfter?_writeTerms hne h]

end TwoAddress.Assembly

namespace TwoAddress.Address

open Assembly Numeral Text

variable {a : Address}

/-! ## The terms of an address -/

def registerTerms (a : Address) : List Term :=
  (a.base.toList.map Reg.render ++ a.index.toList.map ScaledReg.render).map (⟨false, ·⟩)

/-- The displacement as a term, if it is written at all. -/
def numberTerms (a : Address) : List Term :=
  if a.disp = 0 ∧ a.registerTerms ≠ [] then []
  else [⟨decide (a.disp.toInt < 0), ofNat a.disp.toInt.natAbs⟩]

def terms (a : Address) : List Term :=
  a.registerTerms ++ a.numberTerms

theorem plain_registerTerms (a : Address) : ∀ t ∈ a.registerTerms, t.Plain := by
  intro t ht
  obtain ⟨text, htext, rfl⟩ := List.mem_map.mp ht
  rcases List.mem_append.mp htext with h | h
  · obtain ⟨r, _, rfl⟩ := List.mem_map.mp h
    exact ⟨List.cons_ne_nil _ _, termChar_reg r⟩
  · obtain ⟨x, _, rfl⟩ := List.mem_map.mp h
    exact ⟨List.cons_ne_nil _ _, termChar_scaled x⟩

theorem plain_terms (a : Address) : ∀ t ∈ a.terms, t.Plain := by
  refine List.forall_mem_append.mpr ⟨a.plain_registerTerms, ?_⟩
  rw [numberTerms]
  split
  case isTrue => exact fun t ht => nomatch ht
  case isFalse =>
    exact List.forall_mem_singleton.mpr ⟨(digits_ofNat _).ne_nil, termChar_ofNat _⟩

theorem terms_ne_nil (a : Address) : a.terms ≠ [] := by
  intro h
  obtain ⟨hregs, hnumber⟩ := List.append_eq_nil_iff.mp h
  rw [numberTerms, if_neg fun hd => hd.2 hregs] at hnumber
  exact nomatch hnumber

theorem renderRegs_eq (a : Address) : a.renderRegs = writeTerms a.registerTerms := by
  rcases a with ⟨_ | b, _ | x, d⟩ <;>
    simp [renderRegs, registerTerms, writeTerms, Term.write]

theorem disp_eq_zero_iff : a.disp = 0 ↔ a.disp.toInt = 0 := by
  rw [← Int32.toInt_inj]
  rfl

theorem registerTerms_eq_nil_iff : a.registerTerms = [] ↔ a.base = none ∧ a.index = none := by
  rcases a with ⟨_ | b, _ | x, d⟩ <;> simp [registerTerms]

theorem renderDisp_eq (a : Address) (h : a.registerTerms ≠ []) :
    a.renderDisp = a.numberTerms.flatMap Term.write := by
  have hregs : (a.base.isNone && a.index.isNone) = false := by
    refine Bool.eq_false_iff.mpr ?_
    intro hnone
    rw [Bool.and_eq_true, Option.isNone_iff_eq_none, Option.isNone_iff_eq_none] at hnone
    exact h (registerTerms_eq_nil_iff.mpr hnone)
  by_cases hzero : a.disp = 0
  · have hnumber : a.numberTerms = [] := if_pos ⟨hzero, h⟩
    simp [renderDisp, hregs, hnumber, disp_eq_zero_iff.mp hzero]
  · have hne : a.disp.toInt ≠ 0 := fun hd => hzero (disp_eq_zero_iff.mpr hd)
    have hnumber : a.numberTerms = [⟨decide (a.disp.toInt < 0), ofNat a.disp.toInt.natAbs⟩] :=
      if_neg fun hd => hzero hd.1
    by_cases hneg : a.disp.toInt < 0 <;>
      simp [renderDisp, hregs, hnumber, hne, hneg, ofInt, Term.write]

/-- Between its brackets an address is the sum of its terms. -/
theorem render_eq (a : Address) : a.render = '[' :: (writeTerms a.terms ++ [']']) := by
  have hbody : a.renderRegs ++ a.renderDisp = writeTerms a.terms := by
    by_cases h : a.registerTerms = []
    · obtain ⟨hbase, hindex⟩ := registerTerms_eq_nil_iff.mp h
      have hnumber : a.numberTerms =
          [⟨decide (a.disp.toInt < 0), ofNat a.disp.toInt.natAbs⟩] := if_neg fun hd => hd.2 h
      rw [terms, hnumber, h, renderRegs_eq, h, renderDisp, hbase, hindex]
      by_cases hneg : a.disp.toInt < 0 <;> simp [writeTerms, ofInt, hneg]
    · rw [terms, writeTerms_append h, renderRegs_eq, renderDisp_eq a h]
  rw [render, ← hbody]
  simp

end TwoAddress.Address

namespace TwoAddress.Assembly

open Numeral Text

variable {whole : List Char}

/-! ## Reading a term -/

@[simp] theorem register?_render (r : Reg) : register? r.render = some (.ok r) := by
  have h := digits_ofNat r.index.toNat
  have hempty : (ofNat r.index.toNat).isEmpty = false := by simp [h.ne_nil]
  have hall : (ofNat r.index.toNat).all Char.isDigit = true := List.all_eq_true.mpr h.isDigit
  simp only [Reg.render, register?, hempty, hall, uint8?_ofNat]
  rfl

theorem register?_of_digits {ds : List Char} (h : Digits ds) : register? ds = none := by
  unfold register?
  split
  case h_1 => exact absurd (h.isDigit 'R' List.mem_cons_self) (by decide)
  case h_2 => rfl

namespace Sum

theorem part_reg (r : Reg) : part whole r.render = .ok (.register r) := by
  simp only [part, span_of_forall (bne_star_reg r), register?_render]

theorem part_scaled (x : ScaledReg) :
    part whole x.render = .ok (if x.scale = 1 then .register x.reg else .scaled x) := by
  rw [ScaledReg.render]
  by_cases h : x.scale = 1
  · rw [if_pos h, if_pos h, List.append_nil]
    exact part_reg x.reg
  · rw [if_neg h, if_neg h]
    simp only [part, span_append_cons (bne_star_reg x.reg) (by decide : ('*' != '*') = false),
      register?_render, uint8?_ofNat]

theorem part_number {n : Nat} {v : Int64} (hv : TwoAddress.int64? n = some v) :
    part whole (ofNat n) = .ok (.number v.toInt) := by
  have h := digits_ofNat n
  have hstar : ∀ c ∈ ofNat n, (c != '*') = true := h.bne (by decide)
  simp only [part, span_of_forall hstar, register?_of_digits h, int64?_ofNat, hv]

/-! ## Adding the terms up -/

theorem addTerms_append (sum : Sum) (ts us : List Term) :
    sum.addTerms whole (ts ++ us) = sum.addTerms whole ts >>= (·.addTerms whole us) := by
  induction ts generalizing sum with
  | nil => rfl
  | cons t rest ih =>
      simp only [List.cons_append, addTerms, ih, bind_assoc]

theorem addTerms_singleton (sum : Sum) (negative : Bool) {text : List Char} {p : Part}
    (hp : part whole text = .ok p) :
    sum.addTerms whole [⟨negative, text⟩] = sum.add whole negative p := by
  rw [addTerms, hp]
  cases h : sum.add whole negative p with
  | error fault => simp [h, Bind.bind, Except.bind]
  | ok sum' => simp [h, Bind.bind, Except.bind, addTerms]

theorem addTerms_registerTerms (a : Address) :
    Sum.empty.addTerms whole a.registerTerms = .ok ⟨a.normal.base, a.normal.index, 0⟩ := by
  rcases a with ⟨_ | b, _ | x, d⟩
  case none.none => rfl
  case some.none => exact addTerms_singleton _ false (part_reg b)
  case none.some =>
    refine (addTerms_singleton _ _ (part_scaled x)).trans ?_
    by_cases h : x.scale = 1 <;> simp [h, Address.normal, add, empty]
  case some.some =>
    refine (addTerms_append _ [⟨false, b.render⟩] [⟨false, x.render⟩]).trans ?_
    rw [addTerms_singleton _ _ (part_reg b)]
    refine (addTerms_singleton _ _ (part_scaled x)).trans ?_
    by_cases h : x.scale = 1
    · obtain ⟨r, k⟩ := x
      obtain rfl : k = 1 := h
      simp [Address.normal, add, empty]
    · simp [h, Address.normal, add, empty]

theorem addTerms_numberTerms (a : Address) (base : Option Reg) (index : Option ScaledReg) :
    addTerms whole ⟨base, index, 0⟩ a.numberTerms = .ok ⟨base, index, a.disp.toInt⟩ := by
  have hlo := a.disp.le_toInt
  have hhi := a.disp.toInt_lt
  rw [Address.numberTerms]
  split
  case isTrue h =>
    rw [addTerms, Address.disp_eq_zero_iff.mp h.1]
  case isFalse =>
    obtain ⟨v, hv⟩ : ∃ v, TwoAddress.int64? (a.disp.toInt.natAbs : Int) = some v :=
      ⟨_, if_pos (by omega)⟩
    obtain ⟨w, hw⟩ : ∃ w, TwoAddress.int64? a.disp.toInt = some w := ⟨_, if_pos (by omega)⟩
    have hsigned : (0 : Int) + (if decide (a.disp.toInt < 0) = true then -v.toInt else v.toInt) =
        a.disp.toInt := by
      rw [int64?_eq_some_iff.mp hv]
      by_cases hneg : a.disp.toInt < 0
      · rw [if_pos (decide_eq_true hneg)]
        omega
      · rw [if_neg (by simp [hneg])]
        omega
    refine (addTerms_singleton _ _ (part_number hv)).trans ?_
    simp only [add, hsigned, hw, int64?_eq_some_iff.mp hw]

theorem addTerms_terms (a : Address) :
    Sum.empty.addTerms whole a.terms = .ok ⟨a.normal.base, a.normal.index, a.disp.toInt⟩ := by
  rw [Address.terms, addTerms_append, addTerms_registerTerms]
  exact addTerms_numberTerms a _ _

end Sum

/-- What stands between the brackets of an address is read as its normal form. -/
theorem address_writeTerms (a : Address) : address (writeTerms a.terms) = .ok a.normal := by
  have hfields : a.normal = ⟨a.normal.base, a.normal.index, a.disp⟩ := by
    rw [← a.normal_disp]
  simp only [address, terms?_writeTerms a.terms_ne_nil a.plain_terms, Sum.addTerms_terms]
  show Sum.toAddress _ _ = _
  rw [Sum.toAddress, int32?_toInt, hfields]

end TwoAddress.Assembly
