import GraphMarshal.Engine.Candidates
import GraphMarshal.Engine.Registry
import GraphMarshal.Graph.Collection
import GraphMarshal.Instance
import GraphMarshal.Literal

/-!
# Reading resources

A resource is read as a record of a requested type. While it is read the record is registered as under construction, so
that a reference back to the resource finds it; related resources are read the same way. The record becomes an instance of
the most specific registered type that the resource asserts. In strict mode a related record that cannot be read is an
error, otherwise the reference is left out.

`Reader` stands for the reading of related resources, so each step below is a plain function and only `readWithin` is
recursive. Its budget counts the records that may be under construction at once.
-/

namespace GraphMarshal.Engine

open Vocabulary

/-- How a related resource is read. -/
abbrev Reader := TypeName → Resource → Run RecordRef

/-- The resource being read and its description. -/
structure Reading where
  source : SourceRef
  id : Resource
  graph : Graph

def Reading.subject (rd : Reading) : Term := rd.id.toTerm

/-! ## Nodes -/

/-- A reference that cannot be followed: an error in strict mode, otherwise nothing. -/
def unresolvable (cx : Setting) (flaw : Flaw) : Run (Option Value) :=
  if cx.config.strict then Run.invalid flaw else pure none

/-- The first registered type among the classes that a graph gives a node. -/
def assertedType (w : World) (g : Graph) (node : Term) : Option TypeName :=
  ((g.objects node Rdf.type).filterMap Term.iri?).findSome? w.typeForClass

/-- The type of a node: by the description at hand, else by its own. A node that cannot be described has none. -/
def typeOfNode (rd : Reading) (node : Resource) : Run (Option TypeName) := do
  match assertedType (← get) rd.graph node.toTerm with
  | some ty => pure (some ty)
  | none =>
    match ← Run.describe rd.source node with
    | .ok g => pure (assertedType (← get) g node.toTerm)
    | .error _ => pure none

/-- A reference to a related resource, deferred if the member is lazy. -/
def related (cx : Setting) (read : Reader) (rd : Reading) (m : MemberBinding) (target : TypeName)
    (node : Resource) : Run (Option Value) := do
  if m.lazy then
    let c ← Run.allocCell { target, id := node, source := rd.source }
    pure (some (.ref (.lazy c)))
  else
    match ← Run.attempt (read target node) with
    | .ok r => pure (some (.ref (.eager r)))
    | .error e =>
      if cx.config.strict then Run.fail (.caused (.unmaterialized node m.name) e) else pure none

/-- The value of a node for a member. -/
def nodeValue (cx : Setting) (read : Reader) (rd : Reading) (m : MemberBinding) (node : Resource) :
    Run (Option Value) := do
  match m.kind with
  | .resource => pure (some (.resource node))
  | .uri =>
    match node with
    | .iri i => pure (some (.uri i))
    | .blank _ => unresolvable cx (.blankUri node m.name)
  | .ref (some target) => related cx read rd m target node
  | .ref none =>
    match ← typeOfNode rd node with
    | some target => related cx read rd m target node
    | none => unresolvable cx (.untypedNode node m.name)
  | .any =>
    match ← typeOfNode rd node with
    | some target => related cx read rd m target node
    | none => pure (some (.resource node))
  | k => unresolvable cx (.nodeForScalar node k.name m.name)

/-- The value of a term for a member. -/
def termValue (cx : Setting) (read : Reader) (rd : Reading) (m : MemberBinding) (t : Term) :
    Run (Option Value) :=
  match Resource.ofTerm? t with
  | none => Run.ofExcept (Literal.decode t m.kind)
  | some node => nodeValue cx read rd m node

/-! ## Lists -/

/-- The items of a list, cell by cell, each cell described by the source. -/
def walkFrom (source : SourceRef) : Nat → List Term → Term → Run (List Term)
  | 0, _, _ => throw .exhausted
  | n + 1, seen, cell =>
    if cell.isNil ∨ cell ∈ seen then pure []
    else match Resource.ofTerm? cell with
      | none => pure []
      | some id => do
        match ← Run.describe source id with
        | .error e => Run.fail (.source e)
        | .ok g =>
          let item := (g.object? cell Rdf.first).toList
          match g.object? cell Rdf.rest with
          | none => pure item
          | some next => do pure (item ++ (← walkFrom source n (cell :: seen) next))

/-- Every cell but the first is a node of the source, which bounds the walk. -/
def walkList (source : SourceRef) (head : Term) : Run (List Term) := do
  walkFrom source (((← get).source source).nodes.length + 2) [] head

/-- The head of the list in a fetched neighbourhood, where its label may be another one. -/
def fetchedHead? (rd : Reading) (m : MemberBinding) (fetched : Graph) (head : Term) : Option Term :=
  if fetched.isList head then some head
  else (fetched.objects rd.subject m.predicate).find? fetched.isList

/-- The items of the list that starts at a node, if one does. A list that the description does not hold is asked for with
a query; a source without queries has no further lists. -/
def listElements (rd : Reading) (m : MemberBinding) (head : Term) : Run (Option (List Term)) := do
  if rd.graph.isList head then pure (rd.graph.listItems head)
  else if !head.isBlank then pure none
  else
    let dialect ← Run.dialect rd.source
    match ← Run.query rd.source (dialect.listQuery rd.id m.predicate) with
    | .error (.unsupported _) => pure none
    | .error e => Run.fail (.source e)
    | .ok fetched =>
      match fetchedHead? rd m fetched head with
      | none => pure none
      | some head =>
        if m.ordered && dialect.stableLabels then do pure (some (← walkList rd.source head))
        else pure (fetched.listItems head)

/-! ## Members -/

/-- An element of a collection, which has to have a value. -/
def element (cx : Setting) (read : Reader) (rd : Reading) (m : MemberBinding) (t : Term) :
    Run Value := do
  match ← termValue cx read rd m t with
  | some v => pure v
  | none => Run.invalid (.badElement t m.name)

/-- The elements that one object gives to a collection: the items of a list, or itself. -/
def elementsOf (cx : Setting) (read : Reader) (rd : Reading) (m : MemberBinding) (t : Term) :
    Run (List Value) := do
  if t.isNil then pure []
  else
    let listed ← if t.isResource then listElements rd m t else pure none
    (listed.getD [t]).mapM (element cx read rd m)

def collectionValue (cx : Setting) (read : Reader) (rd : Reading) (m : MemberBinding)
    (objects : List Term) : Run Value := do
  let parts ← (m.collected cx.config objects).mapM (elementsOf cx read rd m)
  pure (.list parts.flatten)

def singleValue (cx : Setting) (read : Reader) (rd : Reading) (m : MemberBinding)
    (objects : List Term) : Run (Option Value) :=
  match m.candidates cx.config objects with
  | [] => pure none
  | [t] => termValue cx read rd m t
  | ts => Run.fail (.ambiguousValue m.name ts.length)

/-- The value of a member from the objects of its predicate. -/
def memberValue (cx : Setting) (read : Reader) (rd : Reading) (m : MemberBinding)
    (objects : List Term) : Run (Option Value) :=
  if m.collection then do pure (some (← collectionValue cx read rd m objects))
  else singleValue cx read rd m objects

/-- An error in a member as an error of the resource: ambiguous values and invalid mappings stand for themselves. -/
def memberError (m : MemberBinding) (id : Resource) : MappingError → MappingError
  | .invalid flaw => .invalid flaw
  | .caused flaw e => .caused flaw e
  | .ambiguousValue name count => .ambiguousValue name count
  | e => .caused (.unresolvedMember m.name id) e

/-- Stores a value. A value that does not fit leaves the member unset; any other refusal is an error. A resource that
refers to itself through a member whose field takes resources blocks the reading. -/
def assign (cx : Setting) (r : RecordRef) (m : MemberBinding) (id : Resource) (v : Value) :
    Run Unit := do
  let cur ← Run.recordAt r
  match cur.set cx.schema (← get).heap r m.name v with
  | .ok next => Run.modifyHeap (·.modify r fun _ => next)
  | .error (.failed e) => if e.isMismatch then pure () else Run.invalid (.unassignedMember m.name id e)
  | .error .blocked => throw .blocked

/-- Reads the objects of one predicate into the member bound to it, if there is one. -/
def readPredicate (cx : Setting) (read : Reader) (rd : Reading) (b : TypeBinding) (r : RecordRef)
    (predicate : String) : Run Unit := do
  match b.memberFor? predicate with
  | none => pure ()
  | some m =>
    match ← Run.onError (memberError m rd.id)
        (memberValue cx read rd m (rd.graph.objects rd.subject predicate)) with
    | none => pure ()
    | some v => assign cx r m rd.id v

/-! ## Resources -/

/-- Makes a record an instance of the most specific type that the resource asserts. -/
def refine (cx : Setting) (rd : Reading) (r : RecordRef) (requested : TypeName) : Run Unit := do
  let w ← get
  let classes := (rd.graph.objects rd.subject Rdf.type).filterMap Term.iri?
  match cx.schema.refinement w.typeForClass requested classes with
  | none => pure ()
  | some ty =>
    if cx.schema.carriesId ty then
      Run.modifyHeap (·.modify r fun _ => { type := ty, id := some rd.id })
    else pure ()

/-- Refines a record by the description of its resource, and gives what its members are read from. A resource without
triples gives nothing. -/
def prepare (cx : Setting) (source : SourceRef) (r : RecordRef) (ty : TypeName) (id : Resource) :
    Run (Option (Reading × TypeBinding)) := do
  match ← Run.describe source id with
  | .error e => Run.fail (.source e)
  | .ok graph =>
    let rd : Reading := { source, id, graph }
    if !graph.hasSubject rd.subject then pure none
    else
      refine cx rd r ty
      let b ← bindingOf cx (← Run.recordAt r).type
      pure (some (rd, b))

/-- Reads the members of a record, by the predicates of its resource. -/
def readMembers (cx : Setting) (read : Reader) (rd : Reading) (b : TypeBinding) (r : RecordRef) :
    Run Unit :=
  (rd.graph.predicatesOf rd.subject).forM (readPredicate cx read rd b r)

/-- Fills a record from the description of its resource; a resource without triples leaves it empty. -/
def fill (cx : Setting) (read : Reader) (source : SourceRef) (r : RecordRef) (ty : TypeName)
    (id : Resource) : Run Unit := do
  match ← prepare cx source r ty id with
  | none => pure ()
  | some (rd, b) => readMembers cx read rd b r

/-- Makes a record for a resource and fills it while it is under construction. -/
def construct (cx : Setting) (read : Reader) (source : SourceRef) : Reader := fun ty id => do
  if !cx.schema.carriesId ty then Run.invalid (.noIdentifierSlot ty)
  else
    let r ← Run.alloc { type := ty, id := some id }
    Run.underConstruction id r (fill cx read source r ty id)
    pure r

/-- The record under construction for a resource, or else one that `make` gives. -/
def reuseOr (make : Reader) : Reader := fun ty id => do
  match (← get).construction.get? id with
  | some r => pure r
  | none => make ty id

/-- Reads a resource with at most the given number of records under construction besides those that are already. -/
def readWithin (cx : Setting) (source : SourceRef) : Nat → Reader
  | 0 => reuseOr fun _ _ => throw .exhausted
  | n + 1 => reuseOr (construct cx (readWithin cx source n) source)

/-- Reads a resource as a record of a type. Besides the resource itself only nodes of the source are read, each of them
once at a time, which bounds the records under construction. -/
def fromGraph (cx : Setting) (source : SourceRef) (ty : TypeName) (id : Resource) : Run RecordRef := do
  readWithin cx source (((← get).source source).nodes.length + 1) ty id

end GraphMarshal.Engine
