/-
# `Proofs.Json.RoundTrip` — values are read as they were written

The main statement is `read?_pretty`: what is written for a value is read as that
value, be it of any depth, with any numbers and any strings. The text gives the
tokens of the value, and these take the reader from where a value is expected to
where it has just been given (`run?_tokens`), whatever arrays and objects are open
around it.
-/
import TwoAddress.Json.Reader
import TwoAddress.Proofs.Json.Tokens

namespace TwoAddress.Json

namespace Reader

def run? (r : Reader) (ts : List Token) : Option Reader :=
  ts.foldlM step? r

variable {r r' : Reader} {t : Token}

theorem run?_cons (h : r.step? t = some r') (ts : List Token) :
    r.run? (t :: ts) = r'.run? ts := by
  rw [run?, List.foldlM_cons, h]
  rfl

theorem run?_cons_bind (r : Reader) (t : Token) (ts : List Token) :
    r.run? (t :: ts) = (r.step? t).bind (·.run? ts) := by
  rw [run?, List.foldlM_cons]
  rfl

theorem close?_eq_none (harray : t ≠ .endArray) (hobject : t ≠ .endObject) (stack : List Frame) :
    close? stack t = none := by
  unfold close?
  split
  case h_1 => exact absurd rfl harray
  case h_2 => exact absurd rfl hobject
  case h_3 => rfl

theorem run?_valueOrEnd (stack : List Frame) (j : Json) (ts : List Token) :
    run? ⟨stack, .valueOrEnd⟩ (tokens j ++ ts) = run? ⟨stack, .value⟩ (tokens j ++ ts) := by
  have hstep {t : Token} (harray : t ≠ .endArray) (hobject : t ≠ .endObject) (us : List Token) :
      run? ⟨stack, .valueOrEnd⟩ (t :: us) = run? ⟨stack, .value⟩ (t :: us) := by
    rw [run?_cons_bind, run?_cons_bind]
    simp only [step?, close?_eq_none harray hobject, Option.none_or]
  unfold tokens
  split <;> exact hstep (by simp) (by simp) _

end Reader

theorem ofMembers_map_some (members : List (String × Json)) :
    ofMembers (members.map fun m => (some m.1, m.2)) = .obj members := by
  have hnames : (members.map fun m => (some m.1, m.2)).mapM (m := Option)
      (fun m => m.1.map (·, m.2)) = some members := by
    induction members with
    | nil => rfl
    | cons m members ih => simp [ih]
  rw [ofMembers, hnames]

mutual

/-- The tokens of a value give that value to whatever is open around it. -/
theorem run?_tokens (stack : List Frame) :
    ∀ (j : Json) (ts : List Token), Reader.run? ⟨stack, .value⟩ (tokens j ++ ts) =
      (Reader.give? j stack).bind (·.run? ts)
  | .null, ts => Reader.run?_cons_bind _ _ ts
  | .bool b, ts => Reader.run?_cons_bind _ _ ts
  | .int n, ts => Reader.run?_cons_bind _ _ ts
  | .other, ts => Reader.run?_cons_bind _ _ ts
  | .str s, ts => Reader.run?_cons_bind _ _ ts
  | .arr [], ts => by
      have hopen : Reader.step? ⟨stack, .value⟩ .beginArray =
          some ⟨.array [] :: stack, .valueOrEnd⟩ := rfl
      have hclose : Reader.step? ⟨.array [] :: stack, .valueOrEnd⟩ .endArray =
          Reader.give? (.arr []) stack := by
        show (Reader.give? (.arr []) stack).or none = _
        rw [Option.or_none]
      simp only [tokens, List.cons_append, List.nil_append]
      rw [Reader.run?_cons hopen, Reader.run?_cons_bind, hclose]
  | .arr (item :: items), ts => by
      have hopen : Reader.step? ⟨stack, .value⟩ .beginArray =
          some ⟨.array [] :: stack, .valueOrEnd⟩ := rfl
      have hclose : Reader.step? ⟨.array (items.reverse ++ [item]) :: stack, .commaOrEnd⟩ .endArray =
          Reader.give? (.arr (item :: items)) stack := by
        show Reader.give? (.arr (items.reverse ++ [item]).reverse) stack = _
        simp
      simp only [tokens, List.cons_append, List.append_assoc]
      rw [Reader.run?_cons hopen, Reader.run?_valueOrEnd, run?_tokens _ item]
      -- the first element has been given to the open array
      show Reader.run? ⟨.array [item] :: stack, .commaOrEnd⟩ _ = _
      rw [run?_itemTokens, List.nil_append, Reader.run?_cons_bind, hclose]
  | .obj [], ts => by
      have hopen : Reader.step? ⟨stack, .value⟩ .beginObject =
          some ⟨.object [] :: stack, .nameOrEnd⟩ := rfl
      have hclose : Reader.step? ⟨.object [] :: stack, .nameOrEnd⟩ .endObject =
          Reader.give? (.obj []) stack := by
        show (Reader.give? (.obj []) stack).or none = _
        rw [Option.or_none]
      simp only [tokens, List.cons_append, List.nil_append]
      rw [Reader.run?_cons hopen, Reader.run?_cons_bind, hclose]
  | .obj ((name, value) :: members), ts => by
      have hopen : Reader.step? ⟨stack, .value⟩ .beginObject =
          some ⟨.object [] :: stack, .nameOrEnd⟩ := rfl
      have hname : Reader.step? ⟨.object [] :: stack, .nameOrEnd⟩ (.text (some name)) =
          some ⟨.member [] (some name) :: stack, .colon⟩ := rfl
      have hcolon : Reader.step? ⟨.member [] (some name) :: stack, .colon⟩ .colon =
          some ⟨.member [] (some name) :: stack, .value⟩ := rfl
      have hclose : Reader.step? ⟨.object ((members.map fun m => (some m.1, m.2)).reverse ++
            [(some name, value)]) :: stack, .commaOrEnd⟩ .endObject =
          Reader.give? (.obj ((name, value) :: members)) stack := by
        rw [← ofMembers_map_some, List.map_cons, ← List.reverse_cons]
        exact congrArg (fun ms => Reader.give? (ofMembers ms) stack) (List.reverse_reverse _)
      simp only [tokens, List.cons_append, List.append_assoc]
      rw [Reader.run?_cons hopen, Reader.run?_cons hname, Reader.run?_cons hcolon,
        run?_tokens _ value]
      show Reader.run? ⟨.object [(some name, value)] :: stack, .commaOrEnd⟩ _ = _
      rw [run?_memberTokens, List.nil_append, Reader.run?_cons_bind, hclose]

theorem run?_itemTokens (stack : List Frame) (before : List Json) :
    ∀ (items : List Json) (ts : List Token),
      Reader.run? ⟨.array before :: stack, .commaOrEnd⟩ (itemTokens items ++ ts) =
        Reader.run? ⟨.array (items.reverse ++ before) :: stack, .commaOrEnd⟩ ts
  | [], ts => rfl
  | item :: items, ts => by
      have hcomma : Reader.step? ⟨.array before :: stack, .commaOrEnd⟩ .comma =
          some ⟨.array before :: stack, .value⟩ := rfl
      simp only [itemTokens, List.cons_append, List.append_assoc]
      rw [Reader.run?_cons hcomma, run?_tokens _ item]
      show Reader.run? ⟨.array (item :: before) :: stack, .commaOrEnd⟩ _ = _
      rw [run?_itemTokens, List.reverse_cons, List.append_assoc, List.singleton_append]

theorem run?_memberTokens (stack : List Frame) (before : List (Option String × Json)) :
    ∀ (members : List (String × Json)) (ts : List Token),
      Reader.run? ⟨.object before :: stack, .commaOrEnd⟩ (memberTokens members ++ ts) =
        Reader.run? ⟨.object ((members.map fun m => (some m.1, m.2)).reverse ++ before) :: stack,
          .commaOrEnd⟩ ts
  | [], ts => rfl
  | (name, value) :: members, ts => by
      have hcomma : Reader.step? ⟨.object before :: stack, .commaOrEnd⟩ .comma =
          some ⟨.object before :: stack, .name⟩ := rfl
      have hname : Reader.step? ⟨.object before :: stack, .name⟩ (.text (some name)) =
          some ⟨.member before (some name) :: stack, .colon⟩ := rfl
      have hcolon : Reader.step? ⟨.member before (some name) :: stack, .colon⟩ .colon =
          some ⟨.member before (some name) :: stack, .value⟩ := rfl
      simp only [memberTokens, List.cons_append, List.append_assoc]
      rw [Reader.run?_cons hcomma, Reader.run?_cons hname, Reader.run?_cons hcolon,
        run?_tokens _ value]
      show Reader.run? ⟨.object ((some name, value) :: before) :: stack, .commaOrEnd⟩ _ = _
      rw [run?_memberTokens, List.map_cons, List.reverse_cons, List.append_assoc,
        List.singleton_append]

end

/-- What is written for a value is read as that value. -/
theorem read?_pretty (j : Json) : read? j.pretty = some j := by
  have hrun : (tokens j).foldlM Reader.step? Reader.start = some ⟨[], .finished j⟩ := by
    have h := run?_tokens [] j []
    rw [List.append_nil] at h
    exact h
  rw [read?, tokens?_pretty]
  show ((tokens j).foldlM Reader.step? Reader.start).bind Reader.finish? = _
  rw [hrun]
  rfl

theorem read?_concat_newLine (text : List Char) : read? (text ++ ['\n']) = read? text := by
  rw [read?, read?, tokens?_concat_newLine]

theorem read?_pretty_append (j : Json) {c : Char} (hc : ∀ ts, Lexer.begin? ts c = none)
    (rest : List Char) : read? (j.pretty ++ '\n' :: c :: rest) = none := by
  rw [read?, tokens?_pretty_append j hc]
  rfl

end TwoAddress.Json
