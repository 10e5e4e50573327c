/-!
# Vocabulary

The IRIs that marshalling reads and writes, by vocabulary, and the groups of XSD datatypes that decode
to one native width.
-/

namespace GraphMarshal.Vocabulary

namespace Rdf

def ns : String := "http://www.w3.org/1999/02/22-rdf-syntax-ns#"

def type : String := "http://www.w3.org/1999/02/22-rdf-syntax-ns#type"

def langString : String := "http://www.w3.org/1999/02/22-rdf-syntax-ns#langString"

def first : String := "http://www.w3.org/1999/02/22-rdf-syntax-ns#first"

def rest : String := "http://www.w3.org/1999/02/22-rdf-syntax-ns#rest"

def nil : String := "http://www.w3.org/1999/02/22-rdf-syntax-ns#nil"

end Rdf

namespace Rdfs

def ns : String := "http://www.w3.org/2000/01/rdf-schema#"

def literal : String := "http://www.w3.org/2000/01/rdf-schema#Literal"

end Rdfs

namespace Owl

def ns : String := "http://www.w3.org/2002/07/owl#"

end Owl

namespace Xsd

def ns : String := "http://www.w3.org/2001/XMLSchema#"

def string : String := "http://www.w3.org/2001/XMLSchema#string"

def integer : String := "http://www.w3.org/2001/XMLSchema#integer"

def long : String := "http://www.w3.org/2001/XMLSchema#long"

def int : String := "http://www.w3.org/2001/XMLSchema#int"

def short : String := "http://www.w3.org/2001/XMLSchema#short"

def byte : String := "http://www.w3.org/2001/XMLSchema#byte"

def unsignedLong : String := "http://www.w3.org/2001/XMLSchema#unsignedLong"

def unsignedInt : String := "http://www.w3.org/2001/XMLSchema#unsignedInt"

def unsignedShort : String := "http://www.w3.org/2001/XMLSchema#unsignedShort"

def unsignedByte : String := "http://www.w3.org/2001/XMLSchema#unsignedByte"

def nonNegativeInteger : String := "http://www.w3.org/2001/XMLSchema#nonNegativeInteger"

def positiveInteger : String := "http://www.w3.org/2001/XMLSchema#positiveInteger"

def nonPositiveInteger : String := "http://www.w3.org/2001/XMLSchema#nonPositiveInteger"

def negativeInteger : String := "http://www.w3.org/2001/XMLSchema#negativeInteger"

def decimal : String := "http://www.w3.org/2001/XMLSchema#decimal"

def float : String := "http://www.w3.org/2001/XMLSchema#float"

def double : String := "http://www.w3.org/2001/XMLSchema#double"

def boolean : String := "http://www.w3.org/2001/XMLSchema#boolean"

def dateTime : String := "http://www.w3.org/2001/XMLSchema#dateTime"

def date : String := "http://www.w3.org/2001/XMLSchema#date"

def time : String := "http://www.w3.org/2001/XMLSchema#time"

def anyUri : String := "http://www.w3.org/2001/XMLSchema#anyURI"

/-! ## Datatype families -/

/-- Datatypes that decode to a 32-bit integer where the number fits. -/
def intFamily : List String :=
  [int, integer, positiveInteger, negativeInteger, nonNegativeInteger, nonPositiveInteger,
    unsignedInt]

/-- Datatypes that decode to a 64-bit integer. -/
def longFamily : List String := [long, unsignedLong]

/-- Datatypes that decode to a single-precision float. -/
def floatFamily : List String := [float, decimal]

/-- Datatypes that decode to a 16-bit integer. -/
def shortFamily : List String := [short, unsignedShort]

/-- Datatypes that decode to an 8-bit integer. -/
def byteFamily : List String := [byte, unsignedByte]

def isIntFamily (iri : String) : Bool := decide (iri ∈ intFamily)

def isLongFamily (iri : String) : Bool := decide (iri ∈ longFamily)

def isFloatFamily (iri : String) : Bool := decide (iri ∈ floatFamily)

def isShortFamily (iri : String) : Bool := decide (iri ∈ shortFamily)

def isByteFamily (iri : String) : Bool := decide (iri ∈ byteFamily)

end Xsd

/-- The declarations every prefix table starts with. -/
def wellKnown : List (String × String) :=
  [("rdf", Rdf.ns), ("rdfs", Rdfs.ns), ("xsd", Xsd.ns), ("owl", Owl.ns)]

end GraphMarshal.Vocabulary
