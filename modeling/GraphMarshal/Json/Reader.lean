import GraphMarshal.Json

/-!
# Reading JSON text

A text is read from left to right as one value with white space around it. The reader is strict: no trailing commas, no
leading zeros, no control characters inside strings.
-/

namespace GraphMarshal.Json

def isSpace (c : Char) : Bool := c = ' ' || c = '\n' || c = '\t' || c = '\r'

def skipSpace (cs : List Char) : List Char := cs.dropWhile isSpace

/-- The rest after a fixed word. -/
def expectWord : List Char → List Char → Option (List Char)
  | [], cs => some cs
  | _ :: _, [] => none
  | w :: ws, c :: cs => if w = c then expectWord ws cs else none

/-! ## Strings -/

def hexValue? (c : Char) : Option Nat :=
  if c.isDigit then some (c.toNat - 48)
  else if 'a' ≤ c ∧ c ≤ 'f' then some (c.toNat - 87)
  else if 'A' ≤ c ∧ c ≤ 'F' then some (c.toNat - 55)
  else none

def hexUnit? (a b c d : Char) : Option Nat := do
  let a ← hexValue? a
  let b ← hexValue? b
  let c ← hexValue? c
  let d ← hexValue? d
  some (((a * 16 + b) * 16 + c) * 16 + d)

def simpleEscape? (c : Char) : Option Nat :=
  if c = '"' ∨ c = '\\' ∨ c = '/' then some c.toNat
  else if c = 'b' then some 8
  else if c = 'f' then some 12
  else if c = 'n' then some 10
  else if c = 'r' then some 13
  else if c = 't' then some 9
  else none

/-- The code units of a string up to its closing quote, and the rest. Characters that stand for themselves are units of
their own. -/
def stringUnits : List Char → Option (List Nat × List Char)
  | [] => none
  | '"' :: rest => some ([], rest)
  | '\\' :: 'u' :: a :: b :: c :: d :: rest => do
    let unit ← hexUnit? a b c d
    let (units, rest) ← stringUnits rest
    some (unit :: units, rest)
  | '\\' :: c :: rest => do
    let unit ← simpleEscape? c
    let (units, rest) ← stringUnits rest
    some (unit :: units, rest)
  | c :: rest => do
    if c.toNat < 32 ∨ c = '\\' then none
    else
      let (units, rest) ← stringUnits rest
      some (c.toNat :: units, rest)

def isHighSurrogate (u : Nat) : Bool := 0xD800 ≤ u && u ≤ 0xDBFF

def isLowSurrogate (u : Nat) : Bool := 0xDC00 ≤ u && u ≤ 0xDFFF

/-- The text of code units; surrogates have to come in pairs. -/
def textOfUnits : List Nat → Option (List Char)
  | [] => some []
  | u :: rest =>
    if isHighSurrogate u then
      match rest with
      | v :: rest =>
        if isLowSurrogate v then
          (textOfUnits rest).map (Char.ofNat (0x10000 + (u - 0xD800) * 0x400 + (v - 0xDC00)) :: ·)
        else none
      | [] => none
    else if isLowSurrogate u then none
    else (textOfUnits rest).map (Char.ofNat u :: ·)

/-- A string after its opening quote: its text, if it denotes one, and the rest. -/
def readString (cs : List Char) : Option (Option String × List Char) :=
  (stringUnits cs).map fun (units, rest) => ((textOfUnits units).map String.ofList, rest)

/-! ## Numbers -/

/-- At least one digit, and the rest. -/
def digitRun (cs : List Char) : Option (List Char × List Char) :=
  let ds := cs.takeWhile Char.isDigit
  if ds.isEmpty then none else some (ds, cs.dropWhile Char.isDigit)

def fractionPart : List Char → Option (List Char × List Char)
  | '.' :: rest => (digitRun rest).map fun (ds, rest) => ('.' :: ds, rest)
  | cs => some ([], cs)

def exponentPart : List Char → Option (List Char × List Char)
  | [] => some ([], [])
  | c :: rest =>
    if c = 'e' ∨ c = 'E' then
      match rest with
      | '-' :: rest => (digitRun rest).map fun (ds, rest) => (c :: '-' :: ds, rest)
      | '+' :: rest => (digitRun rest).map fun (ds, rest) => (c :: '+' :: ds, rest)
      | rest => (digitRun rest).map fun (ds, rest) => (c :: ds, rest)
    else some ([], c :: rest)

/-- The text of a number without its sign, and the rest. A leading zero stands alone. -/
def readUnsigned (cs : List Char) : Option (List Char × List Char) := do
  let (whole, rest) ← digitRun cs
  if whole.head? = some '0' ∧ whole.length ≠ 1 then none
  else
    let (frac, rest) ← fractionPart rest
    let (exp, rest) ← exponentPart rest
    some (whole ++ frac ++ exp, rest)

def readNumber : List Char → Option (Json × List Char)
  | '-' :: rest => (readUnsigned rest).map fun (ds, rest) => (number (String.ofList ('-' :: ds)), rest)
  | cs => (readUnsigned cs).map fun (ds, rest) => (number (String.ofList ds), rest)

/-! ## Values -/

/-- An object, which is garbled if one of its keys is. -/
def ofMembers (members : List (Option String × Json)) : Json :=
  match members.mapM fun e => e.1.map fun k => (k, e.2) with
  | some members => object members
  | none => garbled

mutual

/-- A value and the rest after it. The budget bounds the nesting. -/
def readValue : Nat → List Char → Option (Json × List Char)
  | 0, _ => none
  | n + 1, cs =>
    match skipSpace cs with
    | [] => none
    | '"' :: rest =>
      (readString rest).map fun (s, rest) =>
        (match s with
          | some s => string s
          | none => garbled, rest)
    | '[' :: rest =>
      match skipSpace rest with
      | ']' :: rest => some (array [], rest)
      | rest => (readItems n rest).map fun (items, rest) => (array items, rest)
    | '\x7b' :: rest =>
      match skipSpace rest with
      | '\x7d' :: rest => some (object [], rest)
      | rest => (readMembers n rest).map fun (members, rest) => (ofMembers members, rest)
    | 'n' :: rest => (expectWord ['u', 'l', 'l'] rest).map (null, ·)
    | 't' :: rest => (expectWord ['r', 'u', 'e'] rest).map (bool true, ·)
    | 'f' :: rest => (expectWord ['a', 'l', 's', 'e'] rest).map (bool false, ·)
    | cs => readNumber cs

/-- Array items up to the closing bracket. -/
def readItems : Nat → List Char → Option (List Json × List Char)
  | 0, _ => none
  | n + 1, cs => do
    let (item, rest) ← readValue n cs
    match skipSpace rest with
    | ']' :: rest => some ([item], rest)
    | ',' :: rest =>
      let (items, rest) ← readItems n rest
      some (item :: items, rest)
    | _ => none

/-- Object members up to the closing brace. -/
def readMembers : Nat → List Char → Option (List (Option String × Json) × List Char)
  | 0, _ => none
  | n + 1, cs =>
    match skipSpace cs with
    | '"' :: rest => do
      let (key, rest) ← readString rest
      match skipSpace rest with
      | ':' :: rest =>
        let (value, rest) ← readValue n rest
        match skipSpace rest with
        | '\x7d' :: rest => some ([(key, value)], rest)
        | ',' :: rest =>
          let (members, rest) ← readMembers n rest
          some ((key, value) :: members, rest)
        | _ => none
      | _ => none
    | _ => none

end

/-- The value that a whole text denotes. Every nested step but one in two consumes a character, which bounds the
budget. -/
def parse? (text : String) : Option Json :=
  let cs := text.toList
  match readValue (2 * cs.length + 2) cs with
  | some (v, rest) => if (skipSpace rest).isEmpty then some v else none
  | none => none

end GraphMarshal.Json
