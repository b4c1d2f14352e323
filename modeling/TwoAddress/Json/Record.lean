/-
# `Json.Record` — values of JSON as values of types

A record may be written as an object or as an array of its fields in order. In
an object the order is free and members of other names are passed over, but a
field must not be given twice. A field that is left out of an object counts only
where its type allows it to be missing.
-/
import TwoAddress.Json.Basic
import TwoAddress.Word

namespace TwoAddress.Json

/-- The only value of a member; `some none` if there is no such member, `none`
if there are several. -/
def member? (members : List (String × Json)) (name : String) : Option (Option Json) :=
  match members.filter (·.1 == name) with
  | [] => some none
  | [m] => some (some m.2)
  | _ => none

/-- The fields of a record, each `none` where it is left out. -/
def fields? (names : List String) : Json → Option (List (Option Json))
  | .obj members => names.mapM (member? members)
  | .arr items => if items.length = names.length then some (items.map some) else none
  | _ => none

/-- The name and the value of an object of one member. -/
def variant? : Json → Option (String × Json)
  | .obj [m] => some m
  | _ => none

variable {α : Type}

def given? (read? : Json → Option α) (field : Option Json) : Option α :=
  field.bind read?

def nullable? (read? : Json → Option α) : Json → Option (Option α)
  | .null => some none
  | j => (read? j).map some

/-- A field that may be left out or null. -/
def optional? (read? : Json → Option α) : Option Json → Option (Option α)
  | none => some none
  | some j => nullable? read? j

def list? (read? : Json → Option α) : Json → Option (List α)
  | .arr items => items.mapM read?
  | _ => none

def bool? : Json → Option Bool
  | .bool b => some b
  | _ => none

def string? : Json → Option String
  | .str s => some s
  | _ => none

def int? : Json → Option Int
  | .int n => some n
  | _ => none

def uint8? (j : Json) : Option UInt8 :=
  (int? j).bind TwoAddress.uint8?

def int32? (j : Json) : Option Int32 :=
  (int? j).bind TwoAddress.int32?

def int64? (j : Json) : Option Int64 :=
  (int? j).bind TwoAddress.int64?

/-- A natural number that fits in 64 bits. -/
def word64? (j : Json) : Option Nat :=
  match int? j with
  | some n => if 0 ≤ n ∧ n < 0x10000000000000000 then some n.toNat else none
  | none => none

def ofOption (write : α → Json) : Option α → Json
  | none => .null
  | some a => write a

end TwoAddress.Json
