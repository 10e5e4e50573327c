import GraphMarshal.Error
import GraphMarshal.Schema.Lineage
import GraphMarshal.Table
import GraphMarshal.Value

/-!
# The heap

Records are shared: a reference names a place in the heap, and whoever holds it sees what is there now. A record has a
type, an identifier that is given once, and the values stored so far. A deferred reference has a target type, the
resource it stands for and, once it is resolved, a record. Two references are equal when they are the same place or name
the same resource.
-/

namespace GraphMarshal

structure Record where
  type : TypeName
  id : Option Resource := none
  values : Table String Value := ∅

/-- The place of a source among those that an engine reads from. -/
structure SourceRef where
  index : Nat
deriving DecidableEq, Repr

structure LazyCell where
  target : TypeName
  id : Resource
  source : SourceRef
  resolved : Option RecordRef := none

structure Heap where
  records : Array Record := #[]
  lazies : Array LazyCell := #[]

namespace Heap

def record? (h : Heap) (r : RecordRef) : Option Record := h.records[r.index]?

def cell? (h : Heap) (c : LazyRef) : Option LazyCell := h.lazies[c.index]?

/-- The place that the next record gets. -/
def nextRecord (h : Heap) : RecordRef := ⟨h.records.size⟩

def nextCell (h : Heap) : LazyRef := ⟨h.lazies.size⟩

def alloc (h : Heap) (r : Record) : Heap := { h with records := h.records.push r }

def allocCell (h : Heap) (c : LazyCell) : Heap := { h with lazies := h.lazies.push c }

def modify (h : Heap) (r : RecordRef) (f : Record → Record) : Heap :=
  { h with records := h.records.modify r.index f }

def modifyCell (h : Heap) (c : LazyRef) (f : LazyCell → LazyCell) : Heap :=
  { h with lazies := h.lazies.modify c.index f }

def id? (h : Heap) (r : RecordRef) : Option Resource := (h.record? r).bind (·.id)

def type? (h : Heap) (r : RecordRef) : Option TypeName := (h.record? r).map (·.type)

/-- Gives a record an identifier unless it has one. -/
def initId (h : Heap) (r : RecordRef) (id : Resource) : Heap :=
  h.modify r fun rec => { rec with id := some (rec.id.getD id) }

/-- The resource that a deferred reference names, which its record may tell once it is resolved. -/
def cellResource (h : Heap) (c : LazyCell) : Resource := (c.resolved.bind h.id?).getD c.id

/-- The resource that a reference names, without resolving it. -/
def resource? (h : Heap) : Reference → Option Resource
  | .eager r => h.id? r
  | .lazy c => (h.cell? c).map h.cellResource

/-- The record that is asked for the resource a reference names: a deferred reference has none before it is resolved. -/
def asked? (h : Heap) : Reference → Option RecordRef
  | .eager r => some r
  | .lazy c => (h.cell? c).bind (·.resolved)

/-- Whether asking a reference for its resource waits for a locked record. -/
def waits (h : Heap) (locked : Option RecordRef) (x : Reference) : Bool :=
  locked.any fun r => h.asked? x = some r

/-! ## Equality -/

def sameReference (h : Heap) (a b : Reference) : Bool :=
  if a = b then true
  else match h.resource? a, h.resource? b with
    | some i, some j => i = j
    | _, _ => false

mutual

/-- Equality of values in a heap. Values of different kinds differ, and a float that is no number differs from
itself. -/
def sameValue (h : Heap) : Value → Value → Bool
  | .bool a, .bool b => a = b
  | .byte a, .byte b => a = b
  | .short a, .short b => a = b
  | .int a, .int b => a = b
  | .long a, .long b => a = b
  | .float a, .float b => a == b
  | .double a, .double b => a == b
  | .char a, .char b => a = b
  | .string a, .string b => a = b
  | .dateTime a, .dateTime b => a = b
  | .uri a, .uri b => a = b
  | .resource a, .resource b => a = b
  | .ref a, .ref b => h.sameReference a b
  | .list as, .list bs => h.sameValues as bs
  | _, _ => false

def sameValues (h : Heap) : List Value → List Value → Bool
  | [], [] => true
  | a :: as, b :: bs => h.sameValue a b && h.sameValues as bs
  | _, _ => false

end

end Heap

end GraphMarshal
