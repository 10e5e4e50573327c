import GraphMarshal.Kind
import GraphMarshal.Table
import GraphMarshal.Text.Split
import GraphMarshal.Vocabulary

/-!
# Prefix tables

A prefix table maps prefixes to namespaces, the later declaration of a prefix counting, and remembers the types whose
declarations it has taken: those of one type are taken once. `expand` turns compact IRIs into full ones.
-/

namespace GraphMarshal

structure Namespaces where
  prefixes : Table String String
  registered : List TypeName := []

namespace Namespaces

/-- The table of the well-known prefixes. -/
def wellKnown : Namespaces := { prefixes := Table.ofList Vocabulary.wellKnown }

def get? (n : Namespaces) (label : String) : Option String := n.prefixes.get? label

def add (n : Namespaces) (label ns : String) : Namespaces :=
  { n with prefixes := n.prefixes.insert label ns }

def addAll (n : Namespaces) (decls : List (String × String)) : Namespaces :=
  { n with prefixes := n.prefixes.insertAll decls }

def isRegistered (n : Namespaces) (ty : TypeName) : Bool := decide (ty ∈ n.registered)

/-- Takes the declarations of a type unless it was registered before. -/
def register (n : Namespaces) (ty : TypeName) (decls : List (String × String)) : Namespaces :=
  if n.isRegistered ty then n
  else { n.addAll decls with registered := ty :: n.registered }

/-- A text that starts with a known prefix and a colon gets its namespace in their place. What follows the colon must not
start with two slashes. -/
def expand (n : Namespaces) (iri : String) : String :=
  match Text.splitFirst ':' iri.toList with
  | none => iri
  | some (label, rest) =>
    if rest.take 2 = ['/', '/'] then iri
    else match n.get? (String.ofList label) with
      | some ns => ns ++ String.ofList rest
      | none => iri

end Namespaces

end GraphMarshal
