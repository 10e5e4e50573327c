import GraphMarshal.Config
import GraphMarshal.Error
import GraphMarshal.Namespaces
import GraphMarshal.Resource
import GraphMarshal.Schema.Lineage

/-!
# Bindings

A type is resolved into its binding before it is used: the class and the predicates as full IRIs, the members of the
ancestors merged in where the type inherits, transient and unmapped members left out. This module has the binding of a
type by a given prefix table; the table is that after the declarations of the type have been taken.
-/

namespace GraphMarshal

/-- What an engine is made for: its settings and the declared types. -/
structure Setting where
  config : Config
  schema : Schema

structure MemberBinding where
  name : String
  kind : Kind
  predicate : String
  collection : Bool
  ordered : Bool
  language : Option String
  lazy : Bool
  xsdUri : Bool
deriving DecidableEq, Repr

structure TypeBinding where
  type : TypeName
  classIri : String
  /-- The declarations of the type and of the ancestors it inherits from. -/
  namespaces : List (String × String)
  idMember : Option IdMember
  members : List MemberBinding
deriving DecidableEq, Repr

namespace TypeBinding

/-- The first member with a predicate. -/
def memberFor? (b : TypeBinding) (predicate : String) : Option MemberBinding :=
  b.members.find? fun m => m.predicate = predicate

def member? (b : TypeBinding) (name : String) : Option MemberBinding :=
  b.members.find? fun m => m.name = name

end TypeBinding

/-- The namespace of an IRI: up to its last `#` or `/`, or the default one. -/
def namespaceOf (iri : String) : String :=
  match Text.upToLast (fun c => c = '#' || c = '/') iri.toList with
  | some ns => String.ofList ns
  | none => Resource.defaultNamespace

/-! ## Inheritance -/

/-- Adds a declaration at the end, in place of any earlier one of its name. -/
def override (ms : List Member) (m : Member) : List Member := ms.filter (fun e => e.name ≠ m.name) ++ [m]

namespace Schema

/-- The types that a type takes members and prefix declarations from, besides itself. -/
def inherited (s : Schema) (ty : TypeName) : List TypeName :=
  if (s.descriptor ty).inherits then s.ancestors ty else []

/-- The members of a type: declarations of descendants override those of ancestors, later ones earlier ones. -/
def effectiveMembers (s : Schema) (ty : TypeName) : List Member :=
  (((s.inherited ty).flatMap fun a => (s.descriptor a).members) ++ (s.descriptor ty).members).foldl
    override []

def declarations (s : Schema) (ty : TypeName) : List (String × String) :=
  (ty :: s.inherited ty).flatMap fun a => (s.descriptor a).namespaces

end Schema

/-! ## Bindings of members and types -/

/-- The binding of a member; without a predicate it is bound under `base` or not at all. -/
def MemberBinding.ofMember? (c : Config) (n : Namespaces) (base : String) (m : Member) :
    Option MemberBinding :=
  if m.transient then none
  else
    let predicate := match m.predicate with
      | some p => some (n.expand p)
      | none => if c.inferBindings then some (base ++ m.name) else none
    predicate.map fun predicate =>
      { name := m.name, kind := m.kind, predicate, collection := m.collection, ordered := m.ordered,
        language := m.language, lazy := m.lazy, xsdUri := m.xsdUri }

/-- The binding of a type whose declarations have been registered. -/
def TypeBinding.build (cx : Setting) (n : Namespaces) (ty : TypeName) (iri : String) : TypeBinding :=
  let classIri := n.expand iri
  { type := ty
    classIri
    namespaces := cx.schema.declarations ty
    idMember := (cx.schema.descriptor ty).idMember.map fun id => { id with ns := id.ns.map n.expand }
    members := (cx.schema.effectiveMembers ty).filterMap
      (MemberBinding.ofMember? cx.config n (namespaceOf classIri)) }

end GraphMarshal
