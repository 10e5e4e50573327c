/-!
# Kinds of members

The native kind of value that a declared member holds.
-/

namespace GraphMarshal

/-- Declared types are known by their names. -/
abbrev TypeName := String

inductive Kind where
  | bool
  | byte
  | short
  | int
  | long
  | float
  | double
  | char
  | string
  | dateTime
  /-- A URI held as text. -/
  | uri
  /-- A bare resource. -/
  | resource
  /-- A related record. Without a target its type is found from the classes of the node. -/
  | ref (target : Option TypeName)
  /-- Anything: literals decode by their datatype, nodes become related records. -/
  | any
deriving DecidableEq, Repr

namespace Kind

/-- Whether a literal of an unknown datatype may be held as text. -/
def acceptsString : Kind → Bool
  | .string | .any => true
  | _ => false

def isRef : Kind → Bool
  | .ref _ => true
  | _ => false

/-- Whether values of the kind are written as literals. -/
def isScalar : Kind → Bool
  | .uri | .resource | .ref _ | .any => false
  | _ => true

def name : Kind → String
  | .bool => "bool"
  | .byte => "i8"
  | .short => "i16"
  | .int => "i32"
  | .long => "i64"
  | .float => "f32"
  | .double => "f64"
  | .char => "char"
  | .string => "string"
  | .dateTime => "datetime"
  | .uri => "uri"
  | .resource => "resource"
  | .ref _ => "record"
  | .any => "any"

/-- The kind of a name; a related record gets the target given. -/
def ofName? (target : Option TypeName) : String → Option Kind
  | "bool" => some .bool
  | "i8" => some .byte
  | "i16" => some .short
  | "i32" => some .int
  | "i64" => some .long
  | "f32" => some .float
  | "f64" => some .double
  | "char" => some .char
  | "string" => some .string
  | "datetime" => some .dateTime
  | "uri" => some .uri
  | "resource" => some .resource
  | "record" => some (.ref target)
  | "any" => some .any
  | _ => none

end Kind

end GraphMarshal
