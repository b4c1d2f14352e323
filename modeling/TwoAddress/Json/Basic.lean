/-
# `Json.Basic` — the values of JSON texts

Descriptors and lowered code are exchanged as JSON, and they are made of
integers, truth values, texts, lists and records. So a number that is not
written as an integer, and a text that is not Unicode because it holds half of
a surrogate pair, have no place in them. They are still JSON, and may stand in a
member that nobody looks at: all of them are the one value `other`.
-/

namespace TwoAddress

/-- The value of a JSON text. -/
inductive Json where
  | null
  | bool (b : Bool)
  | int (n : Int)
  | str (s : String)
  | arr (items : List Json)
  /-- The members in the order of the text, a name possibly more than once. -/
  | obj (members : List (String × Json))
  /-- Well formed, but nothing that descriptors or code are made of. -/
  | other

end TwoAddress
