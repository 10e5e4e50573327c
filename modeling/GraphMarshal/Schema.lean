import GraphMarshal.Kind

/-!
# Declared types

A declared type has a descriptor: its class, its prefix declarations, its parents and its members. Instances of an
abstract type are stand-ins that hold any value for a declared member. Instances of a concrete type have fields, and each
field has a rule for the values that it takes.
-/

namespace GraphMarshal

/-- What a native field does with a value. -/
inductive FieldRule where
  /-- There is no such field. -/
  | hidden
  /-- The field takes no value. -/
  | refusing
  /-- A value is converted to the native type of the kind. -/
  | typed (kind : Kind)
deriving DecidableEq, Repr

structure Member where
  name : String
  kind : Kind
  /-- The predicate declared, compact or expanded. -/
  predicate : Option String := none
  collection : Bool := false
  /-- Whether the order of a collection counts, so that it is written as a list. -/
  ordered : Bool := false
  language : Option String := none
  lazy : Bool := false
  /-- Left out of the mapping. -/
  transient : Bool := false
  /-- URIs are written as literals instead of nodes. -/
  xsdUri : Bool := false
  /-- The field of a concrete instance. -/
  field : FieldRule := .typed kind
deriving DecidableEq, Repr

/-- The member whose value gives the identifier, and the namespace for it. -/
structure IdMember where
  member : String
  ns : Option String := none
deriving DecidableEq, Repr

structure Descriptor where
  /-- The IRI of the class, compact or expanded. -/
  classIri : Option String := none
  namespaces : List (String × String) := []
  /-- The marker of types that are meant to be stored. -/
  entity : Bool := false
  /-- Whether the members of the parents are mapped too. -/
  inherits : Bool := false
  parents : List TypeName := []
  idMember : Option IdMember := none
  members : List Member := []
deriving DecidableEq, Repr

/-- The first declared member of a name. -/
def Descriptor.find? (d : Descriptor) (name : String) : Option Member :=
  d.members.find? fun m => m.name = name

structure TypeDecl where
  name : TypeName
  descriptor : Descriptor
  isAbstract : Bool := false
  /-- Whether instances have a slot for an identifier. -/
  carriesId : Bool := true
deriving DecidableEq, Repr

/-- The declared types. The first declaration of a name counts. -/
structure Schema where
  types : List TypeDecl := []

namespace Schema

def find? (s : Schema) (ty : TypeName) : Option TypeDecl := s.types.find? fun d => d.name = ty

/-- The descriptor of a type; a type that is not declared has an empty one. -/
def descriptor (s : Schema) (ty : TypeName) : Descriptor :=
  match s.find? ty with
  | some d => d.descriptor
  | none => {}

def parents (s : Schema) (ty : TypeName) : List TypeName := (s.descriptor ty).parents

def isAbstract (s : Schema) (ty : TypeName) : Bool :=
  match s.find? ty with
  | some d => d.isAbstract
  | none => false

/-- Stand-ins always have a slot for an identifier. -/
def carriesId (s : Schema) (ty : TypeName) : Bool :=
  match s.find? ty with
  | some d => d.isAbstract || d.carriesId
  | none => true

end Schema

end GraphMarshal
