import GraphMarshal.Distinct
import GraphMarshal.Value.Convert

/-!
# Instances of declared types

How a record gives and takes the values of its members. A stand-in for an abstract type takes any value for a member that
its type declares itself. A concrete record has the fields that its type and its ancestors declare, the first declaration
of a name counting, and each field follows its rule. A collection that was never stored reads as the empty list.

A record is set at its place in the heap, and locked until the value is stored. A stand-in stores the value as it is, so
only the conversion of a concrete field can meet the lock.
-/

namespace GraphMarshal

namespace Schema

/-- The declarations behind the fields of a concrete type: its own, then those of its ancestors as they are met. -/
def fieldMembers (s : Schema) (ty : TypeName) : List Member :=
  (s.lineage ty).entered.flatMap fun t => (s.descriptor t).members

def field? (s : Schema) (ty : TypeName) (name : String) : Option Member :=
  (s.fieldMembers ty).find? fun m => m.name = name

/-- The names of the fields, each once. -/
def fieldNames (s : Schema) (ty : TypeName) : List String :=
  distinct ((s.fieldMembers ty).map (·.name))

/-- An instance without values. It keeps an identifier only where its type has a slot for one. -/
def instantiate (s : Schema) (ty : TypeName) (id : Option Resource) : Record :=
  { type := ty, id := if s.carriesId ty then id else none }

def declares (s : Schema) (ty : TypeName) (name : String) : Bool :=
  (s.descriptor ty).members.any fun m => m.name = name

def declaresCollection (s : Schema) (ty : TypeName) (name : String) : Bool :=
  (s.descriptor ty).members.any fun m => m.collection && m.name = name

end Schema

namespace Record

/-- What a record gives for a member: the value stored, or the empty list of a collection. -/
def stored (r : Record) (name : String) (collection : Bool) : Option Value :=
  match r.values.get? name with
  | some v => some v
  | none => if collection then some (.list []) else none

def get? (s : Schema) (r : Record) (name : String) : Option Value :=
  if s.isAbstract r.type then r.stored name (s.declaresCollection r.type name)
  else match s.field? r.type name with
    | some m => if m.field = .hidden then none else r.stored name m.collection
    | none => none

def store (r : Record) (name : String) (v : Value) : Record :=
  { r with values := r.values.insert name v }

/-- The value that a field keeps for a value given to it. -/
def accepted (h : Heap) (locked : Option RecordRef) (m : Member) (v : Value) : Except Stop Value :=
  match m.field with
  | .hidden => .error (.failed (.unknownMember m.name))
  | .refusing => .error (.failed .refused)
  | .typed .any => .ok v
  | .typed k => if m.collection then v.convertList h locked k else v.convert h locked k

/-- Stores a value into the record at a place. -/
def set (s : Schema) (h : Heap) (place : RecordRef) (r : Record) (name : String) (v : Value) :
    Except Stop Record :=
  if s.isAbstract r.type then
    if s.declares r.type name then .ok (r.store name v) else .error (.failed (.unknownMember name))
  else match s.field? r.type name with
    | some m => (accepted h (some place) m v).map (r.store name)
    | none => .error (.failed (.unknownMember name))

end Record

end GraphMarshal
