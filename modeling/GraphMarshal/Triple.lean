import GraphMarshal.Term

/-!
# Triples

A statement of a subject, a predicate and an object, in the lexicographic order of the three.
-/

namespace GraphMarshal

structure Triple where
  subject : Term
  predicate : Term
  object : Term
deriving DecidableEq, Repr

namespace Triple

def predicateIri? (t : Triple) : Option String := t.predicate.iri?

def text (t : Triple) : String :=
  t.subject.text ++ " " ++ t.predicate.text ++ " " ++ t.object.text ++ " ."

protected def compare (a b : Triple) : Ordering :=
  (compare a.subject b.subject).then
    ((compare a.predicate b.predicate).then (compare a.object b.object))

instance : Ord Triple := ⟨Triple.compare⟩

end Triple

end GraphMarshal
