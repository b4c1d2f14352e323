/-
# `Proofs.Assembly.Cut` — a sum cut at its signs

A text is a sum if it is rows of signs and terms in turn and ends with a term. The
first row may be empty, the others have a sign at least; no term is empty, and none
holds a sign. So the terms are as long as they can be, and each has all the signs
before it that there are (`Cut`). Whether a term is subtracted depends on how many of
its signs are minus signs.

Reading goes by characters and keeps one bit of the signs and the term so far. The bit
is the parity (`termsAfter?_signs`), and the two together are a cut that is not
finished yet (`exists_cut_of_termsAfter?`).
-/
import TwoAddress.Proofs.Assembly.Sum

namespace TwoAddress.Assembly

/-! ## Cuts -/

/-- Taken together, the signs are a minus: an odd number of them is. -/
def subtracts (signs : List Char) : Bool :=
  signs.count '-' % 2 == 1

/-- A term with the row of signs before it. -/
structure Chunk where
  signs : List Char
  term : List Char
deriving DecidableEq, Repr

namespace Chunk

/-- The term, with its signs taken together. -/
def toTerm (k : Chunk) : Term :=
  ⟨subtracts k.signs, k.term⟩

/-- A row of signs, and a term that is there and has none. -/
structure Proper (k : Chunk) : Prop where
  signs : ∀ c ∈ k.signs, isSign c = true
  ne_nil : k.term ≠ []
  free : ∀ c ∈ k.term, isSign c = false

end Chunk

/-- The text is these rows of signs and terms in turn. After a term the next row begins
with a sign, so no term could be longer. -/
inductive Cut : (text : List Char) → List Chunk → Prop
  | last {k : Chunk} : k.Proper → Cut (k.signs ++ k.term) [k]
  | more {k : Chunk} {c : Char} {rest : List Char} {chunks : List Chunk} : k.Proper →
      isSign c = true → Cut (c :: rest) chunks →
      Cut (k.signs ++ (k.term ++ c :: rest)) (k :: chunks)

variable {c : Char} {signs term rest text : List Char} {negative : Bool} {ts : List Term}
  {chunks : List Chunk}

theorem Cut.proper (h : Cut text chunks) : ∀ k ∈ chunks, k.Proper := by
  induction h with
  | last hk => exact List.forall_mem_singleton.mpr hk
  | more hk _ _ ih => exact List.forall_mem_cons.mpr ⟨hk, ih⟩

/-! ## Reading a cut text -/

theorem isSign_iff : isSign c = true ↔ c = '+' ∨ c = '-' := by
  simp [isSign]

/-- Of a row of signs the parity of the minus signs is kept. -/
theorem termsAfter?_signs (h : ∀ c ∈ signs, isSign c = true) (before rest : List Char) :
    termsAfter? (subtracts before) [] (signs ++ rest) =
      termsAfter? (subtracts (before ++ signs)) [] rest := by
  induction signs generalizing before with
  | nil => rw [List.nil_append, List.append_nil]
  | cons c signs ih =>
      obtain ⟨hc, hsigns⟩ := List.forall_mem_cons.mp h
      have hparity : (subtracts before != (c == '-')) =
          subtracts (before ++ [c]) := by
        rcases isSign_iff.mp hc with rfl | rfl
        · simp [subtracts]
        · simp only [subtracts, List.count_append, List.count_singleton_self]
          rcases Nat.mod_two_eq_zero_or_one (before.count '-') with hmod | hmod <;>
            simp [hmod, Nat.add_mod]
      rw [List.cons_append, termsAfter?, if_pos hc, List.isEmpty_nil, if_pos rfl, hparity,
        ih hsigns, List.append_assoc, List.singleton_append]

theorem termsAfter?_next (hterm : term ≠ []) (hc : isSign c = true) :
    termsAfter? negative term (c :: rest) =
      (termsAfter? false [] (c :: rest)).map (⟨negative, term⟩ :: ·) := by
  rw [termsAfter?, if_pos hc, if_neg (by simpa using hterm), termsAfter?, if_pos hc,
    List.isEmpty_nil, if_pos rfl, Bool.false_bne]

theorem termsAfter?_chunk {k : Chunk} (h : k.Proper) (rest : List Char) :
    termsAfter? false [] (k.signs ++ (k.term ++ rest)) =
      termsAfter? (subtracts k.signs) k.term rest := by
  have hsigns := termsAfter?_signs h.signs [] (k.term ++ rest)
  rw [List.nil_append] at hsigns
  refine hsigns.trans ?_
  rw [termsAfter?_append h.free, List.nil_append]

theorem Cut.termsAfter? (h : Cut text chunks) :
    termsAfter? false [] text = some (chunks.map Chunk.toTerm) := by
  induction h with
  | last hk =>
      have hread := termsAfter?_chunk hk []
      rw [List.append_nil] at hread
      rw [hread, Assembly.termsAfter?, if_neg (by simpa using hk.ne_nil)]
      rfl
  | more hk hc _ ih =>
      rw [termsAfter?_chunk hk, termsAfter?_next hk.ne_nil hc, ih]
      rfl

/-- What has been read is a row of signs and the beginning of a term; with the text
that follows it is a cut. The induction is on that text. -/
theorem exists_cut_of_termsAfter? {k : Chunk} (hsigns : ∀ c ∈ k.signs, isSign c = true)
    (hfree : ∀ c ∈ k.term, isSign c = false)
    (h : termsAfter? (subtracts k.signs) k.term text = some ts) :
    ∃ chunks, Cut (k.signs ++ (k.term ++ text)) chunks ∧ ts = chunks.map Chunk.toTerm := by
  induction text generalizing k ts with
  | nil =>
      rw [termsAfter?] at h
      split at h
      case isTrue => cases h
      case isFalse hne =>
        obtain rfl := Option.some.inj h
        rw [List.append_nil]
        exact ⟨[k], .last ⟨hsigns, by simpa using hne, hfree⟩, rfl⟩
  | cons c rest ih =>
      by_cases hc : isSign c = true
      · by_cases hterm : k.term = []
        · -- one more sign of the row
          have hrow : ∀ d ∈ k.signs ++ [c], isSign d = true :=
            List.forall_mem_append.mpr ⟨hsigns, List.forall_mem_singleton.mpr hc⟩
          have hnext := termsAfter?_signs (List.forall_mem_singleton.mpr hc) k.signs rest
          have hread : termsAfter? (subtracts (k.signs ++ [c])) [] rest = some ts := by
            rw [← hnext, ← h, hterm]
            rfl
          obtain ⟨chunks, hcut, hts⟩ := ih (k := ⟨k.signs ++ [c], []⟩) hrow
            (List.forall_mem_nil _) hread
          refine ⟨chunks, ?_, hts⟩
          rw [hterm]
          simpa using hcut
        · -- the term is at its end, and the row of the next begins
          rw [termsAfter?_next hterm hc] at h
          obtain ⟨ts', hread, rfl⟩ := Option.map_eq_some_iff.mp h
          have hnext := termsAfter?_signs (List.forall_mem_singleton.mpr hc) [] rest
          have hread' : termsAfter? (subtracts [c]) [] rest = some ts' := by
            rw [← hread]
            exact hnext.symm
          obtain ⟨chunks, hcut, rfl⟩ := ih (k := ⟨[c], []⟩)
            (List.forall_mem_singleton.mpr hc) (List.forall_mem_nil _) hread'
          exact ⟨k :: chunks, .more ⟨hsigns, hterm, hfree⟩ hc hcut, rfl⟩
      · -- one more character of the term
        have hfree' : ∀ d ∈ k.term ++ [c], isSign d = false :=
          List.forall_mem_append.mpr ⟨hfree, List.forall_mem_singleton.mpr (by simpa using hc)⟩
        rw [termsAfter?, if_neg hc] at h
        obtain ⟨chunks, hcut, hts⟩ := ih (k := ⟨k.signs, k.term ++ [c]⟩) hsigns hfree' h
        refine ⟨chunks, ?_, hts⟩
        simpa using hcut

/-- A text has terms exactly if it can be cut, blanks left out, and then it has those of
the cut. -/
theorem terms?_eq_some_iff :
    terms? text = some ts ↔
      ∃ chunks, Cut (text.filter (!Text.isBlank ·)) chunks ∧ ts = chunks.map Chunk.toTerm := by
  constructor
  · intro h
    exact exists_cut_of_termsAfter? (k := ⟨[], []⟩) (List.forall_mem_nil _)
      (List.forall_mem_nil _) h
  · rintro ⟨chunks, hcut, rfl⟩
    exact hcut.termsAfter?

end TwoAddress.Assembly
