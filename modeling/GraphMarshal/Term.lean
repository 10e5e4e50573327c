import GraphMarshal.Datatype

/-!
# Terms

An RDF term is a blank node, an IRI or a literal: a lexical form, a datatype and an optional language tag. Terms are
ordered, blank nodes first, then IRIs, then literals by their parts; texts compare by code point and a missing tag stands
before any tag.
-/

namespace GraphMarshal

open Vocabulary

inductive Term where
  | blank (label : String)
  | iri (iri : String)
  | literal (lexical : String) (datatype : Datatype) (language : Option String)
deriving DecidableEq, Repr

namespace Term

def string (s : String) : Term := .literal s .string none

def langString (s tag : String) : Term := .literal s .langString (some tag)

def typed (lexical : String) (d : Datatype) : Term := .literal lexical d none

/-- The end of every list. -/
def nil : Term := .iri Rdf.nil

def isBlank : Term → Bool
  | .blank _ => true
  | _ => false

def isLiteral : Term → Bool
  | .literal .. => true
  | _ => false

/-- Whether a term is a blank node or an IRI. -/
def isResource (t : Term) : Bool := !t.isLiteral

def isNil (t : Term) : Bool := t = nil

def language : Term → Option String
  | .literal _ _ tag => tag
  | _ => none

def iri? : Term → Option String
  | .iri i => some i
  | _ => none

def literal? : Term → Option (String × Datatype × Option String)
  | .literal s d tag => some (s, d, tag)
  | _ => none

def text : Term → String
  | .blank label => "_:" ++ label
  | .iri i => "<" ++ i ++ ">"
  | .literal s d tag =>
    "\"" ++ s ++ "\"" ++
      match tag with
      | some tag => "@" ++ tag
      | none => if d.isString then "" else "^^<" ++ d.iri ++ ">"

/-! ## Order -/

/-- The order of optional texts, nothing first. -/
def compareTag : Option String → Option String → Ordering
  | none, none => .eq
  | none, some _ => .lt
  | some _, none => .gt
  | some a, some b => compare a b

protected def compare : Term → Term → Ordering
  | .blank a, .blank b => compare a b
  | .blank _, _ => .lt
  | .iri _, .blank _ => .gt
  | .iri a, .iri b => compare a b
  | .iri _, .literal .. => .lt
  | .literal s d tag, .literal s' d' tag' =>
    (compare s s').then ((compare d.iri d'.iri).then (compareTag tag tag'))
  | .literal .., _ => .gt

instance : Ord Term := ⟨Term.compare⟩

end Term

end GraphMarshal
