import GraphMarshal.Calendar.Reader
import GraphMarshal.Error
import GraphMarshal.Kind
import GraphMarshal.Text.Uri
import GraphMarshal.Value

/-!
# The literal codec

Scalars are written as literals of one datatype each, texts with the language given. Reading goes by the datatype of the
literal and several datatypes give one native width; plain text is read for the kind of the member and stays text where
it does not fit.
-/

namespace GraphMarshal.Literal

open Calendar Number Text Vocabulary

/-! ## Writing -/

/-- The datatype of the scalars that are not texts. -/
def datatype? : Value → Option Datatype
  | .bool _ => some .boolean
  | .byte _ => some .byte
  | .short _ => some .short
  | .int _ => some .int
  | .long _ => some .long
  | .float _ => some .float
  | .double _ => some .double
  | .dateTime _ => some .dateTime
  | .uri _ => some .anyUri
  | _ => none

def encode (v : Value) (language : Option String) : Except MappingError Term :=
  match v with
  | .string s =>
    .ok (match language with
      | some tag => .langString s tag
      | none => .string s)
  | .char c => .ok (.string (String.ofList [c]))
  | v =>
    match datatype? v with
    | some d => .ok (.typed v.lexical d)
    | none => .error (.invalid (.notLiteralValue v.kindName))

/-! ## Reading -/

def readBool (cs : List Char) : Option Bool :=
  let word := String.ofList (trim cs)
  if word = "true" ∨ word = "1" then some true
  else if word = "false" ∨ word = "0" then some false
  else none

def readDouble (cs : List Char) : Option Float := readFloat (trim cs)

def readSingle (cs : List Char) : Option Float32 := (readDouble cs).map Float.toFloat32

/-- A 32-bit value where the number fits, else a 64-bit one. -/
def ofInt64 (n : Int64) : Value :=
  if -2147483648 ≤ n.toInt ∧ n.toInt ≤ 2147483647 then .int n.toInt32 else .long n

/-- The value that plain text denotes for a kind, if it denotes one. -/
def parsePlain (text : String) (k : Kind) : Option Value :=
  let cs := text.toList
  match k with
  | .bool => (readBool cs).map .bool
  | .byte => (readInt8 (trim cs)).toOption.map .byte
  | .short => (readInt16 (trim cs)).toOption.map .short
  | .int => (readInt32 (trim cs)).toOption.map .int
  | .long => (readInt64 (trim cs)).toOption.map .long
  | .float => (readSingle cs).map .float
  | .double => (readDouble cs).map .double
  | .dateTime => (readDateTime cs).map .dateTime
  | .char =>
    match cs with
    | [c] => some (.char c)
    | _ => none
  | .uri => if isAbsoluteUri cs then some (.uri text) else none
  | _ => none

/-- Plain text as a value of a kind, and as text where it denotes none. -/
def conform (text : String) (k : Kind) : Value := (parsePlain text k).getD (.string text)

/-- A value that was read, or the reason why there is none. -/
def orFault (v : Option Value) (e : LiteralFault) : Except LiteralFault (Option Value) :=
  match v with
  | some v => .ok (some v)
  | none => .error e

/-- An integer that was read, or the reason why there is none. -/
def ofInteger (v : Except IntegerError Value) : Except LiteralFault (Option Value) :=
  match v with
  | .ok v => .ok (some v)
  | .error e => .error (.notInteger e)

/-- The value of typed text. Nothing, and no error, for an `xsd:anyURI` that is no absolute URI. -/
def decodeTyped (lexical iri : String) (k : Kind) : Except LiteralFault (Option Value) :=
  let cs := lexical.toList
  if iri = Xsd.boolean then orFault ((readBool cs).map .bool) .notBoolean
  else if Xsd.isIntFamily iri then ofInteger ((readInt64 (trim cs)).map ofInt64)
  else if Xsd.isLongFamily iri then ofInteger ((readInt64 (trim cs)).map .long)
  else if iri = Xsd.double then orFault ((readDouble cs).map .double) .notDouble
  else if Xsd.isFloatFamily iri then orFault ((readSingle cs).map .float) .notFloat
  else if Xsd.isShortFamily iri then ofInteger ((readInt16 (trim cs)).map .short)
  else if Xsd.isByteFamily iri then ofInteger ((readInt8 (trim cs)).map .byte)
  else if iri = Xsd.anyUri then .ok (if isAbsoluteUri cs then some (.uri lexical) else none)
  else if iri = Xsd.date ∨ iri = Xsd.dateTime then
    orFault ((readDateTime cs).map .dateTime) .notDate
  else if iri = Xsd.time then orFault ((readTime cs).map .dateTime) .notTime
  else if k.acceptsString then .ok (some (.string lexical))
  else .error (.unknownDatatype k.name)

/-- The value of a literal for a member of a kind. -/
def decode (term : Term) (k : Kind) : Except MappingError (Option Value) :=
  match term with
  | .literal lexical d _ =>
    if d.isPlain then .ok (some (conform lexical k))
    else match decodeTyped lexical d.iri k with
      | .ok v => .ok v
      | .error e => .error (.unsupportedLiteral d.iri lexical e)
  | t => .error (.invalid (.notALiteral t))

end GraphMarshal.Literal
