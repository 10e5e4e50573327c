import GraphMarshal.Engine.Registry
import GraphMarshal.Instance
import GraphMarshal.Text.Percent
import GraphMarshal.Text.Uri

/-!
# Giving identifiers

A record without an identifier gets one from its identifying member, or a generated one if its type names no such member.
A URI or a resource is taken as it is, a text that is an absolute URI too, and other texts are percent-encoded under the
namespace of the member. An identifying reference gives the identifier of the record it refers to, which gets its own
first.
-/

namespace GraphMarshal.Engine

/-- The identifier minted from a text. -/
def mint (ns : Option String) (text : String) : Resource :=
  if Text.isAbsoluteUri text.toList then .iri text
  else .iri (ns.getD Resource.defaultNamespace ++ String.ofList (Text.percentEncode text.toList))

/-- The value of the identifying member, which has to be there and not to be empty. -/
def identifyingValue (cx : Setting) (rec : Record) (member : String) : Except Flaw Value :=
  match rec.get? cx.schema member with
  | some v => if v.isEmpty then .error (.identifierUnset member rec.type) else .ok v
  | none => .error (.identifierUnset member rec.type)

/-- The identifier that a reference stands for; `assign` gives one to a record. -/
def referenceId (assign : RecordRef → Run Resource) : Reference → Run Resource
  | .eager r => assign r
  | .lazy c => do
    match (← get).heap.resource? (.lazy c) with
    | some id => pure id
    | none => throw .dangling

def idOfValue (assign : RecordRef → Run Resource) (ns : Option String) : Value → Run Resource
  | .resource id => pure id
  | .uri u => pure (.iri u)
  | .ref r => referenceId assign r
  | .list _ => Run.invalid .identifierIsCollection
  | v => pure (mint ns v.lexical)

/-- The identifier for a record of a type that has none yet. -/
def freshId (cx : Setting) (assign : RecordRef → Run Resource) (rec : Record) : Run Resource := do
  let b ← bindingOf cx rec.type
  match b.idMember with
  | none => Run.generateId
  | some m =>
    match identifyingValue cx rec m.member with
    | .error flaw => Run.invalid flaw
    | .ok v => idOfValue assign m.ns v

/-- The identifier of a record, given one if it has none. The budget bounds the chain of identifying references. -/
def assignIdWithin (cx : Setting) : Nat → RecordRef → Run Resource
  | 0, _ => throw .exhausted
  | n + 1, r => do
    let cur ← Run.recordAt r
    match cur.id with
    | some id => pure id
    | none =>
      if !cx.schema.carriesId cur.type then Run.invalid (.noIdentifierSlot cur.type)
      else
        let id ← freshId cx (assignIdWithin cx n) cur
        Run.modifyHeap (·.initId r id)
        pure (((← get).heap.id? r).getD id)

/-- A chain of identifying references that does not come back to itself has at most as many steps as there are
records. -/
def assignId (cx : Setting) (r : RecordRef) : Run Resource := do
  assignIdWithin cx ((← get).heap.records.size + 1) r

end GraphMarshal.Engine
