import GraphMarshal.Vocabulary

/-!
# Datatypes

A literal always has a datatype, given by its expanded IRI. Literals of the plain datatypes carry their lexical form as
their value.
-/

namespace GraphMarshal

open Vocabulary

structure Datatype where
  iri : String
deriving DecidableEq, Repr

namespace Datatype

def string : Datatype := ⟨Xsd.string⟩

def boolean : Datatype := ⟨Xsd.boolean⟩

def integer : Datatype := ⟨Xsd.integer⟩

def int : Datatype := ⟨Xsd.int⟩

def long : Datatype := ⟨Xsd.long⟩

def short : Datatype := ⟨Xsd.short⟩

def byte : Datatype := ⟨Xsd.byte⟩

def float : Datatype := ⟨Xsd.float⟩

def double : Datatype := ⟨Xsd.double⟩

def dateTime : Datatype := ⟨Xsd.dateTime⟩

def anyUri : Datatype := ⟨Xsd.anyUri⟩

def langString : Datatype := ⟨Rdf.langString⟩

/-- The datatypes that have a name of their own here, with that name. -/
def named : List (String × Datatype) :=
  [("string", string), ("boolean", boolean), ("integer", integer), ("int", int), ("long", long),
    ("short", short), ("byte", byte), ("float", float), ("double", double), ("dateTime", dateTime),
    ("anyURI", anyUri), ("langString", langString)]

def name? (d : Datatype) : Option String := (named.find? fun e => e.2 = d).map (·.1)

def isString (d : Datatype) : Bool := d = string

/-- Whether literals of this datatype are plain text. -/
def isPlain (d : Datatype) : Bool := d = string || d = langString || d = ⟨Rdfs.literal⟩

end Datatype

end GraphMarshal
