/-
# `Json.Reader` — putting tokens together

The tokens are taken one by one, and the arrays and objects that are open wait
on a stack. So a text may be nested to any depth.
-/
import TwoAddress.Json.Token

namespace TwoAddress.Json

/-- An open array or object. What it holds is kept last element first. -/
inductive Frame where
  | array (items : List Json)
  | object (members : List (Option String × Json))
  /-- An object in which the value of `name` is to come. -/
  | member (members : List (Option String × Json)) (name : Option String)

/-- What may come next. -/
inductive Expected where
  | value
  /-- Right after the beginning of an array. -/
  | valueOrEnd
  | name
  /-- Right after the beginning of an object. -/
  | nameOrEnd
  | colon
  | commaOrEnd
  /-- Nothing: this is the value of the text. -/
  | finished (value : Json)

/-- What has been read so far. -/
structure Reader where
  stack : List Frame
  expected : Expected

/-- The object of the members, unless a name among them is not Unicode. -/
def ofMembers (members : List (Option String × Json)) : Json :=
  match members.mapM fun m => m.1.map (·, m.2) with
  | some members => .obj members
  | none => .other

namespace Reader

def start : Reader := ⟨[], .value⟩

/-- Puts a value where one is expected. -/
def give? (value : Json) : List Frame → Option Reader
  | [] => some ⟨[], .finished value⟩
  | .array items :: stack => some ⟨.array (value :: items) :: stack, .commaOrEnd⟩
  | .member members name :: stack =>
      some ⟨.object ((name, value) :: members) :: stack, .commaOrEnd⟩
  | .object _ :: _ => none

def value? (stack : List Frame) : Token → Option Reader
  | .beginArray => some ⟨.array [] :: stack, .valueOrEnd⟩
  | .beginObject => some ⟨.object [] :: stack, .nameOrEnd⟩
  | .text (some s) => give? (.str s) stack
  | .text none => give? .other stack
  | .word v => give? v stack
  | _ => none

def name? : List Frame → Token → Option Reader
  | .object members :: stack, .text name => some ⟨.member members name :: stack, .colon⟩
  | _, _ => none

/-- Closes the innermost array or object. -/
def close? : List Frame → Token → Option Reader
  | .array items :: stack, .endArray => give? (.arr items.reverse) stack
  | .object members :: stack, .endObject => give? (ofMembers members.reverse) stack
  | _, _ => none

def step? (r : Reader) (token : Token) : Option Reader :=
  match r.expected with
  | .value => value? r.stack token
  | .valueOrEnd => (close? r.stack token).or (value? r.stack token)
  | .name => name? r.stack token
  | .nameOrEnd => (close? r.stack token).or (name? r.stack token)
  | .colon =>
      match token with
      | .colon => some ⟨r.stack, .value⟩
      | _ => none
  | .commaOrEnd =>
      match r.stack, token with
      | .array _ :: _, .comma => some ⟨r.stack, .value⟩
      | .object _ :: _, .comma => some ⟨r.stack, .name⟩
      | stack, token => close? stack token
  | .finished _ => none

def finish? (r : Reader) : Option Json :=
  match r.expected with
  | .finished value => some value
  | _ => none

end Reader

/-- The value of a text. -/
def read? (text : List Char) : Option Json := do
  let tokens ← tokens? text
  (← tokens.foldlM Reader.step? Reader.start).finish?

end TwoAddress.Json
