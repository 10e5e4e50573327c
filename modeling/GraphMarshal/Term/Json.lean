import GraphMarshal.Json
import GraphMarshal.Triple

/-!
# JSON form of terms and triples

A term is an object with one key that names its kind. The parts of a literal and of a triple are read by key: unknown
keys are passed over, a repeated part is an error, and a literal without a language has none. A triple may also be the
array of its parts in order.

What is read here is a JSON value as a whole, and an array is no literal. A reader that goes through the text of the same
value also takes a literal for the array of its three parts in order; that reader is not this one.
-/

namespace GraphMarshal

open Json

def Datatype.toJson (d : Datatype) : Json := .string d.iri

namespace Term

def toJson : Term → Json
  | .blank label => .object [("BlankNode", .string label)]
  | .iri i => .object [("Iri", .string i)]
  | .literal s d tag =>
    .object [("Literal", .object [
      ("lexical", .string s),
      ("datatype", d.toJson),
      ("language", match tag with
        | some tag => .string tag
        | none => .null)])]

/-- A language: nothing, or a text; the outer `none` is an error. -/
def languageOfJson? : Option Json → Option (Option String)
  | none => some none
  | some .null => some none
  | some (.string tag) => some (some tag)
  | some _ => none

def literalOfJson? : Json → Option Term
  | .object members => do
    let lexical ← (← uniqueMember? members "lexical").bind string?
    let datatype ← (← uniqueMember? members "datatype").bind string?
    let language ← languageOfJson? (← uniqueMember? members "language")
    some (.literal lexical ⟨datatype⟩ language)
  | _ => none

def ofJson? : Json → Option Term
  | .object [(key, value)] =>
    if key = "BlankNode" then value.string?.map .blank
    else if key = "Iri" then value.string?.map .iri
    else if key = "Literal" then literalOfJson? value
    else none
  | _ => none

end Term

namespace Triple

def toJson (t : Triple) : Json :=
  .object [("s", t.subject.toJson), ("p", t.predicate.toJson), ("o", t.object.toJson)]

def ofJson? : Json → Option Triple
  | .object members => do
    let s ← (← uniqueMember? members "s").bind Term.ofJson?
    let p ← (← uniqueMember? members "p").bind Term.ofJson?
    let o ← (← uniqueMember? members "o").bind Term.ofJson?
    some ⟨s, p, o⟩
  | .array [s, p, o] => do
    let s ← Term.ofJson? s
    let p ← Term.ofJson? p
    let o ← Term.ofJson? o
    some ⟨s, p, o⟩
  | _ => none

end Triple

end GraphMarshal
