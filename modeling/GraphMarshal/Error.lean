import GraphMarshal.Number.Integer
import GraphMarshal.Resource

/-!
# Errors

What can go wrong, by cause. The wording of each cause is one function of it. An invalid mapping may have been caused by
another error; `rootCause` follows such causes to their origin.
-/

namespace GraphMarshal

/-- Failure of a graph source. -/
inductive SourceError where
  | unsupported (detail : String)
  | query (detail : String)
  | other (detail : String)
deriving DecidableEq, Repr

def SourceError.message : SourceError → String
  | .unsupported detail => "Operation not supported by this source: " ++ detail
  | .query detail => "Query failed: " ++ detail
  | .other detail => detail

/-- Failure to store a value into a member. -/
inductive AssignError where
  /-- The value is fine but does not fit the member. -/
  | mismatch (expected found : String)
  | unknownMember (name : String)
  /-- An identifier was wanted of a record that has none. -/
  | unidentified
  /-- The member takes no value at all. -/
  | refused
deriving DecidableEq, Repr

namespace AssignError

def message : AssignError → String
  | .mismatch expected found => "type mismatch: expected " ++ expected ++ ", found " ++ found
  | .unknownMember name => "unknown member '" ++ name ++ "'"
  | .unidentified => "related record has no identifier"
  | .refused => "member refuses values"

def isMismatch : AssignError → Bool
  | .mismatch .. => true
  | _ => false

end AssignError

/-- Why a value is not stored: it is refused, or storing it waits for ever for the record that it is being stored into. -/
inductive Stop where
  | failed (e : AssignError)
  | blocked
deriving DecidableEq, Repr

/-- Why a literal has no value. -/
inductive LiteralFault where
  | notBoolean
  | notInteger (e : Number.IntegerError)
  | notDouble
  | notFloat
  | notDate
  | notTime
  | unknownDatatype (kind : String)
  | stated (reason : String)
deriving DecidableEq, Repr

def LiteralFault.message : LiteralFault → String
  | .notBoolean => "not a boolean"
  | .notInteger e => e.message
  | .notDouble => "not a double"
  | .notFloat => "not a float"
  | .notDate => "not an ISO date"
  | .notTime => "not a time"
  | .unknownDatatype kind => "unknown datatype for a " ++ kind ++ " member"
  | .stated reason => reason

/-- What makes a mapping invalid. -/
inductive Flaw where
  | noClass (type : String)
  | noIdentifierSlot (type : String)
  | notAnEntity (type : String)
  | identifierUnset (member type : String)
  | identifierIsCollection
  | notALiteral (term : Term)
  | notLiteralValue (kind : String)
  | nestedCollection (member : String)
  | badElement (term : Term) (member : String)
  | unresolvedMember (member : String) (id : Resource)
  | unassignedMember (member : String) (id : Resource) (e : AssignError)
  | unmaterialized (node : Resource) (member : String)
  | blankUri (node : Resource) (member : String)
  | untypedNode (node : Resource) (member : String)
  | nodeForScalar (node : Resource) (kind member : String)
  | stated (text : String)
deriving DecidableEq, Repr

def Flaw.message : Flaw → String
  | .noClass type => "type " ++ type ++ " has no class binding"
  | .noIdentifierSlot type => "type " ++ type ++ " cannot carry a resource identifier"
  | .notAnEntity type => "type " ++ type ++ " is not marked as an entity"
  | .identifierUnset member type => "identifying member '" ++ member ++ "' of " ++ type ++ " is not set"
  | .identifierIsCollection => "identifying member holds a collection"
  | .notALiteral term => term.text ++ " is not a literal"
  | .notLiteralValue kind => "a " ++ kind ++ " value cannot be written as a literal"
  | .nestedCollection member => "member '" ++ member ++ "' holds a nested collection"
  | .badElement term member =>
    "cannot convert collection element " ++ term.text ++ " of member '" ++ member ++ "'"
  | .unresolvedMember member id => "cannot resolve member '" ++ member ++ "' of " ++ id.text
  | .unassignedMember member id e =>
    "cannot assign member '" ++ member ++ "' of " ++ id.text ++ ": " ++ e.message
  | .unmaterialized node member =>
    "cannot materialize " ++ node.text ++ " for member '" ++ member ++ "'"
  | .blankUri node member => "blank node " ++ node.text ++ " cannot fill URI member '" ++ member ++ "'"
  | .untypedNode node member =>
    "no registered type for " ++ node.text ++ " (member '" ++ member ++ "')"
  | .nodeForScalar node kind member =>
    node.text ++ " cannot fill " ++ kind ++ " member '" ++ member ++ "'"
  | .stated text => text

inductive MappingError where
  | invalid (flaw : Flaw)
  | caused (flaw : Flaw) (cause : MappingError)
  | unsupportedLiteral (datatype lexical : String) (fault : LiteralFault)
  | ambiguousValue (member : String) (count : Nat)
  | unknownType (iri : String)
  | source (e : SourceError)
  | config
deriving DecidableEq, Repr

namespace MappingError

/-- The error at the origin of a chain of invalid mappings. -/
def rootCause : MappingError → MappingError
  | .caused _ cause => cause.rootCause
  | e => e

def isAmbiguous (e : MappingError) : Bool :=
  match e.rootCause with
  | .ambiguousValue .. => true
  | _ => false

def isInvalid : MappingError → Bool
  | .invalid _ => true
  | .caused .. => true
  | _ => false

/-- The text of an error, without that of its cause. A configuration that cannot be read has no text of its own. -/
def message : MappingError → String
  | .invalid flaw => "Invalid mapping: " ++ flaw.message
  | .caused flaw _ => "Invalid mapping: " ++ flaw.message
  | .unsupportedLiteral datatype lexical fault =>
    "Unsupported literal \"" ++ lexical ++ "\"^^<" ++ datatype ++ ">: " ++ fault.message
  | .ambiguousValue member count =>
    "Ambiguous value for member '" ++ member ++ "': " ++ toString count ++
      " candidates for a single-valued member"
  | .unknownType iri => "Unknown type: no registered type for class <" ++ iri ++ ">"
  | .source e => "Graph source error: " ++ e.message
  | .config => "Invalid configuration"

end MappingError

end GraphMarshal
