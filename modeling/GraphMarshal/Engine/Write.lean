import GraphMarshal.Engine.Identity
import GraphMarshal.Graph.Collection
import GraphMarshal.Literal

/-!
# Writing records

A record is written as its class and the values of its mapped members. Related records appear by their identifiers only.
An ordered collection becomes a list, any other collection one triple per element, and what is empty is not written.
-/

namespace GraphMarshal.Engine

open Vocabulary

/-- The term of a value or of an element of a collection. -/
def termOf (cx : Setting) (m : MemberBinding) : Value → Run Term
  | .ref r => do pure (← referenceId (assignId cx) r).toTerm
  | .resource id => pure id.toTerm
  | .list _ => Run.invalid (.nestedCollection m.name)
  | v =>
    match v, m.xsdUri with
    | .uri u, false => pure (.iri u)
    | v, _ =>
      if cx.config.strongTyping then Run.ofExcept (Literal.encode v m.language)
      else pure (.string v.lexical)

/-- The triples of a member's value. -/
def memberTriples (cx : Setting) (subject : Term) (m : MemberBinding) : Value → Run (List Triple)
  | .list items => do
    let terms ← items.mapM (termOf cx m)
    if m.ordered then
      let entries ← terms.mapM fun t => do pure (← Run.generateBlank, t)
      pure (Graph.listTriples subject (.iri m.predicate) entries)
    else pure (terms.map fun t => ⟨subject, .iri m.predicate, t⟩)
  | v => do pure [⟨subject, .iri m.predicate, ← termOf cx m v⟩]

/-- The mapped members of a record that have something to write. -/
def writtenValues (cx : Setting) (b : TypeBinding) (rec : Record) : List (MemberBinding × Value) :=
  b.members.filterMap fun m =>
    match rec.get? cx.schema m.name with
    | some v => if v.isEmpty then none else some (m, v)
    | none => none

def toGraph (cx : Setting) (r : RecordRef) : Run Graph := do
  let b ← bindingOf cx (← Run.recordAt r).type
  let subject := (← assignId cx r).toTerm
  let values := writtenValues cx b (← Run.recordAt r)
  let triples ← values.mapM fun e => memberTriples cx subject e.1 e.2
  pure { triples := ⟨subject, .iri Rdf.type, .iri b.classIri⟩ :: triples.flatten
         prefixes := Table.ofList b.namespaces }

end GraphMarshal.Engine
