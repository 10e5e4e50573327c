/-!
# JSON values

Numbers keep their text, and objects their members in the order of the text, repeated keys included. `garbled` stands
for a string or an object key whose escapes denote no text: such a value is well formed, but nothing can be read from it.
-/

namespace GraphMarshal

inductive Json where
  | null
  | bool (b : Bool)
  | number (text : String)
  | string (s : String)
  | array (items : List Json)
  | object (members : List (String × Json))
  | garbled

namespace Json

/-- The value of a key that stands at most once among the members; the outer `none` says that it is repeated. -/
def uniqueMember? (members : List (String × Json)) (key : String) : Option (Option Json) :=
  match members.filter fun e => e.1 = key with
  | [] => some none
  | [e] => some (some e.2)
  | _ => none

def string? : Json → Option String
  | .string s => some s
  | _ => none

def bool? : Json → Option Bool
  | .bool b => some b
  | _ => none

end Json

end GraphMarshal
