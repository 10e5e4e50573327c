import GraphMarshal.Calendar.Instant
import GraphMarshal.Number.Floating
import GraphMarshal.Resource

/-!
# Values of members

A member holds a scalar, a resource, a reference to a record or a list of values. Records and deferred references live
in a heap and are known here by their places in it.
-/

namespace GraphMarshal

/-- The place of a record in a heap. -/
structure RecordRef where
  index : Nat
deriving DecidableEq, Repr

/-- The place of a deferred reference in a heap. -/
structure LazyRef where
  index : Nat
deriving DecidableEq, Repr

inductive Reference where
  | eager (record : RecordRef)
  | lazy (cell : LazyRef)
deriving DecidableEq, Repr

inductive Value where
  | bool (b : Bool)
  | byte (n : Int8)
  | short (n : Int16)
  | int (n : Int32)
  | long (n : Int64)
  | float (x : Float32)
  | double (x : Float)
  | char (c : Char)
  | string (s : String)
  | dateTime (t : Calendar.Instant)
  | uri (s : String)
  | resource (id : Resource)
  | ref (r : Reference)
  | list (items : List Value)

namespace Value

def kindName : Value → String
  | .bool _ => "bool"
  | .byte _ => "i8"
  | .short _ => "i16"
  | .int _ => "i32"
  | .long _ => "i64"
  | .float _ => "f32"
  | .double _ => "f64"
  | .char _ => "char"
  | .string _ => "string"
  | .dateTime _ => "datetime"
  | .uri _ => "uri"
  | .resource _ => "resource"
  | .ref _ => "record"
  | .list _ => "list"

/-- The text of a scalar; resources, references and lists have none. -/
def lexical? : Value → Option String
  | .bool b => some (if b then "true" else "false")
  | .byte n => some (String.ofList (Number.intText n.toInt))
  | .short n => some (String.ofList (Number.intText n.toInt))
  | .int n => some (String.ofList (Number.intText n.toInt))
  | .long n => some (String.ofList (Number.intText n.toInt))
  | .float x => some (String.ofList (Number.singleText x))
  | .double x => some (String.ofList (Number.doubleText x))
  | .char c => some (String.ofList [c])
  | .string s => some s
  | .dateTime t => some (String.ofList t.text)
  | .uri s => some s
  | .resource _ | .ref _ | .list _ => none

def lexical (v : Value) : String := v.lexical?.getD ""

/-- Whether a value writes nothing: empty text or an empty list. -/
def isEmpty : Value → Bool
  | .string s => s.isEmpty
  | .uri s => s.isEmpty
  | .list items => items.isEmpty
  | _ => false

end Value

end GraphMarshal
