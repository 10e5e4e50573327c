import GraphMarshal.Resource

/-!
# Query dialects

How a source wants its queries written. The one query asked is for the neighbourhood of a list: all triples of the
values of a subject under a predicate.
-/

namespace GraphMarshal

inductive Dialect where
  | sparql
  /-- SPARQL with blank node labels that keep their meaning from one request to the next. -/
  | arq
  | serql
  | unknown
deriving DecidableEq, Repr

namespace Dialect

def stableLabels (d : Dialect) : Bool := d = .arq

def listQuery (d : Dialect) (subject : Resource) (predicate : String) : String :=
  let s := subject.text
  match d with
  | .serql => "construct * from \x7b" ++ s ++ "\x7d <" ++ predicate ++ "> \x7bo\x7d, \x7bo\x7d po \x7boo\x7d"
  | _ =>
    "CONSTRUCT \x7b " ++ s ++ " <" ++ predicate ++ "> ?o . ?o ?po ?oo \x7d\nWHERE\n\x7b " ++ s ++ " <" ++
      predicate ++ "> ?o .\n?o ?po ?oo . \x7d"

end Dialect

end GraphMarshal
