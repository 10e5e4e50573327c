import GraphMarshal.Heap

/-!
# Conversion to native types

A value fits a native type as it is, or by widening: integers to wider integers and to floats, single to double
precision, a text of one character to a character, texts and characters to text. A resource may also be given by a URI or
by the record that it identifies. Every other value is a mismatch.

A record is locked while a value is stored into it, and asking a locked record for its identifier never comes to an end.
-/

namespace GraphMarshal.Value

/-- The name of the native type in messages; URIs are held as text. -/
def nativeName (k : Kind) : String := if k = .uri then "string" else k.name

def text? : Value → Option String
  | .string s => some s
  | .uri s => some s
  | .char c => some (String.ofList [c])
  | _ => none

def int16? : Value → Option Int16
  | .byte n => some n.toInt16
  | .short n => some n
  | _ => none

def int32? : Value → Option Int32
  | .byte n => some n.toInt32
  | .short n => some n.toInt32
  | .int n => some n
  | _ => none

def int64? : Value → Option Int64
  | .byte n => some n.toInt64
  | .short n => some n.toInt64
  | .int n => some n.toInt64
  | .long n => some n
  | _ => none

def single? : Value → Option Float32
  | .byte n => some n.toFloat32
  | .short n => some n.toFloat32
  | .int n => some n.toFloat32
  | .long n => some n.toFloat32
  | .float x => some x
  | _ => none

def double? : Value → Option Float
  | .byte n => some n.toFloat
  | .short n => some n.toFloat
  | .int n => some n.toFloat
  | .long n => some n.toFloat
  | .float x => some x.toFloat
  | .double x => some x
  | _ => none

def char? : Value → Option Char
  | .char c => some c
  | .string s =>
    match s.toList with
    | [c] => some c
    | _ => none
  | _ => none

/-- The value of the native type, if this value fits it. -/
def fit? : Kind → Value → Option Value
  | .bool, .bool b => some (.bool b)
  | .byte, .byte n => some (.byte n)
  | .short, v => v.int16?.map .short
  | .int, v => v.int32?.map .int
  | .long, v => v.int64?.map .long
  | .float, v => v.single?.map .float
  | .double, v => v.double?.map .double
  | .char, v => v.char?.map .char
  | .string, v => v.text?.map .string
  | .uri, v => v.text?.map .uri
  | .dateTime, .dateTime t => some (.dateTime t)
  | .resource, .resource id => some (.resource id)
  | .resource, .uri s => some (.resource (.iri s))
  | .ref _, .ref r => some (.ref r)
  | .any, v => some v
  | _, _ => none

/-- The value as one of the native type, while the given record is locked. -/
def convert (h : Heap) (locked : Option RecordRef) (k : Kind) (v : Value) : Except Stop Value :=
  match k, v with
  | .resource, .ref x =>
    if h.waits locked x then .error .blocked
    else match h.resource? x with
      | some id => .ok (.resource id)
      | none => .error (.failed .unidentified)
  | k, v =>
    match v.fit? k with
    | some v => .ok v
    | none => .error (.failed (.mismatch (nativeName k) v.kindName))

/-- Conversion to a list, up to the first element that does not fit. -/
def convertList (h : Heap) (locked : Option RecordRef) (k : Kind) : Value → Except Stop Value
  | .list items => (items.mapM (convert h locked k)).map .list
  | v => .error (.failed (.mismatch "list" v.kindName))

end GraphMarshal.Value
