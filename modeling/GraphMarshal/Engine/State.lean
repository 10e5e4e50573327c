import GraphMarshal.Binding
import GraphMarshal.Heap
import GraphMarshal.Source

/-!
# Engine state

An engine keeps the types registered for classes, the bindings resolved so far, the prefix table, the records under
construction, the heap and its sources. Operations are runs over this state. A run that fails keeps the changes that it
has made, and only errors count as failures that may be tolerated: running out of a budget is told apart from them, and so
is a run that is blocked, which never ends and whose last state nobody sees.
-/

namespace GraphMarshal

inductive SourceCall where
  | describe (id : Resource)
  | query (text : String)
deriving DecidableEq, Repr

structure World where
  namespaces : Namespaces
  /-- The types registered for full class IRIs. -/
  classes : Table String TypeName := ∅
  bindings : Table TypeName TypeBinding := ∅
  /-- Records that are being read, by their resources. -/
  construction : Table Resource RecordRef := ∅
  heap : Heap := {}
  sources : Array Source := #[]
  /-- The calls made to the sources, the latest first. -/
  calls : List (SourceRef × SourceCall) := []
  /-- How many names have been generated. -/
  generated : Nat := 0

/-- The world of an engine that has done nothing yet. -/
def World.initial (c : Config) : World :=
  { namespaces := Namespaces.wellKnown.addAll c.namespaces.entries }

def World.source (w : World) (s : SourceRef) : Source := w.sources.getD s.index .empty

/-- The type registered for a class, whose IRI may be compact. -/
def World.typeForClass (w : World) (iri : String) : Option TypeName :=
  w.classes.get? (w.namespaces.expand iri)

/-- Why a run stops without a result. -/
inductive Halt where
  | failed (e : MappingError)
  /-- A budget of steps was used up. -/
  | exhausted
  /-- A reference names no place in the heap. -/
  | dangling
  /-- The run waits for a lock that it holds itself. -/
  | blocked
deriving DecidableEq, Repr

abbrev Run := EStateM Halt World

namespace Run

def fail {α : Type} (e : MappingError) : Run α := throw (.failed e)

def invalid {α : Type} (flaw : Flaw) : Run α := fail (.invalid flaw)

def ofExcept {α : Type} : Except MappingError α → Run α
  | .ok a => pure a
  | .error e => fail e

/-- Runs `x` and gives an error of it as a result. -/
def attempt {α : Type} (x : Run α) : Run (Except MappingError α) := fun w =>
  match x w with
  | .ok a w => .ok (.ok a) w
  | .error (.failed e) w => .ok (.error e) w
  | .error .exhausted w => .error .exhausted w
  | .error .dangling w => .error .dangling w
  | .error .blocked w => .error .blocked w

/-- Replaces the error of a run. -/
def onError {α : Type} (f : MappingError → MappingError) (x : Run α) : Run α := do
  match ← attempt x with
  | .ok a => pure a
  | .error e => fail (f e)

/-! ## Heap -/

def recordAt (r : RecordRef) : Run Record := do
  match (← get).heap.record? r with
  | some rec => pure rec
  | none => throw .dangling

def modifyHeap (f : Heap → Heap) : Run Unit := modify fun w => { w with heap := f w.heap }

def alloc (rec : Record) : Run RecordRef := do
  let r := (← get).heap.nextRecord
  modifyHeap (·.alloc rec)
  pure r

def allocCell (cell : LazyCell) : Run LazyRef := do
  let c := (← get).heap.nextCell
  modifyHeap (·.allocCell cell)
  pure c

/-! ## Generated names -/

def nextGenerated : Run Nat := do
  let n := (← get).generated
  modify fun w => { w with generated := n + 1 }
  pure n

def generateId : Run Resource := do pure (.generated (← nextGenerated))

def generateBlank : Run Term := do pure (.generated (← nextGenerated))

/-! ## Sources -/

def record (s : SourceRef) (call : SourceCall) : Run Unit :=
  modify fun w => { w with calls := (s, call) :: w.calls }

def describe (s : SourceRef) (id : Resource) : Run (Except SourceError Graph) := do
  record s (.describe id)
  pure (((← get).source s).describe id)

def query (s : SourceRef) (text : String) : Run (Except SourceError Graph) := do
  record s (.query text)
  pure (((← get).source s).query text)

def dialect (s : SourceRef) : Run Dialect := do pure ((← get).source s).dialect

/-! ## Construction -/

/-- Runs `x` with a record registered as under construction, and withdraws it however `x` ends. -/
def underConstruction {α : Type} (id : Resource) (r : RecordRef) (x : Run α) : Run α := fun w =>
  match x { w with construction := w.construction.insert id r } with
  | .ok a w => .ok a { w with construction := w.construction.erase id }
  | .error e w => .error e { w with construction := w.construction.erase id }

end Run

end GraphMarshal
