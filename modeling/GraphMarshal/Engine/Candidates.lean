import GraphMarshal.Binding
import GraphMarshal.Distinct
import GraphMarshal.Term

/-!
# Choosing among the objects of a predicate

Which objects may give the value of a member, before any of them is decoded. A single-valued member looks at the objects
of the right structure, each once: with language awareness only at those in its own language, without it at the untagged
ones if there are any, then at those in the default language, then at all.
-/

namespace GraphMarshal

/-- Whether a term has the structure that a kind asks for. -/
def Kind.admits (k : Kind) (t : Term) : Bool :=
  if k.isScalar then t.isLiteral
  else match k with
    | .ref _ => t.isResource
    | .resource => t.isResource
    | _ => true

/-- The untagged terms, else those in a language, else all. -/
def preferLanguage (lang : String) (ts : List Term) : List Term :=
  let untagged := ts.filter fun t => t.language = none
  let tagged := ts.filter fun t => t.language = some lang
  if !untagged.isEmpty then untagged else if !tagged.isEmpty then tagged else ts

namespace MemberBinding

/-- The objects that a single-valued member chooses from. -/
def candidates (c : Config) (m : MemberBinding) (objects : List Term) : List Term :=
  let ts := (distinct objects).filter m.kind.admits
  if ts.any Term.isResource then ts
  else if c.languageAware then ts.filter fun t => t.language = m.language
  else preferLanguage c.defaultLanguage ts

/-- The objects that a collection member takes. -/
def collected (c : Config) (m : MemberBinding) (objects : List Term) : List Term :=
  let ts := distinct objects
  if c.languageAware then ts.filter fun t => !t.isLiteral || t.language = m.language else ts

end MemberBinding

/-- The most specific type that classes assert besides the requested one: a later one replaces an earlier one that it
extends. -/
def Schema.refinement (s : Schema) (typeFor : String → Option TypeName) (requested : TypeName)
    (classes : List String) : Option TypeName :=
  classes.foldl (fun current iri =>
    match typeFor iri with
    | none => current
    | some ty =>
      if ty = requested then current
      else if s.isA ty requested then
        match current with
        | none => some ty
        | some cur => if s.isA ty cur then some ty else some cur
      else current) none

end GraphMarshal
