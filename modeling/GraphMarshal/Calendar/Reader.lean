import GraphMarshal.Calendar.Instant
import GraphMarshal.Number.Integer
import GraphMarshal.Text.Blank

/-!
# Reading dates and times

A date-time text is tried as an RFC 3339 time with an offset, then as a local date and time in UTC, then as a date. The
local forms are looser than RFC 3339: numbers may be shorter, may have white space before them, and a year may have a
sign and any number of digits. A clock time falls on 1970-01-01, and a bare integer in place of one counts
milliseconds.
-/

namespace GraphMarshal.Calendar

open Number Text

/-- The rest after a given character. -/
def expect (c : Char) : List Char → Option (List Char)
  | [] => none
  | d :: rest => if d = c then some rest else none

/-- A number of exactly `n` digits, and the rest. -/
def fixedNumber (n : Nat) (cs : List Char) : Option (Nat × List Char) :=
  let ds := cs.take n
  if ds.length = n ∧ ds.all Char.isDigit then some (digitsValue ds, cs.drop n) else none

/-- A number of one to `limit` digits after optional white space, and the rest. -/
def looseNumber (limit : Nat) (cs : List Char) : Option (Nat × List Char) :=
  let cs := trimLeft cs
  let ds := (cs.takeWhile Char.isDigit).take limit
  if ds.isEmpty then none else some (digitsValue ds, cs.drop ds.length)

/-- A year of one to four digits, or a sign and any number of digits. -/
def looseYear (cs : List Char) : Option (Int × List Char) :=
  let signed (negative : Bool) (rest : List Char) : Option (Int × List Char) :=
    let ds := rest.takeWhile Char.isDigit
    if ds.isEmpty then none
    else some (if negative then -(digitsValue ds : Int) else digitsValue ds, rest.drop ds.length)
  match trimLeft cs with
  | '-' :: rest => signed true rest
  | '+' :: rest => signed false rest
  | rest => (looseNumber 4 rest).map fun r => ((r.1 : Int), r.2)

/-- A fraction of a second in nanoseconds: at least one digit, of which nine count. -/
def fraction (cs : List Char) : Option (Nat × List Char) :=
  let ds := cs.takeWhile Char.isDigit
  if ds.isEmpty then none
  else
    let kept := ds.take 9
    some (digitsValue kept * Nat.pow 10 (9 - kept.length), cs.drop ds.length)

def optionalFraction : List Char → Option (Nat × List Char)
  | '.' :: rest => fraction rest
  | cs => some (0, cs)

/-- A clock time in seconds from midnight and nanoseconds; second 60 is a leap second. -/
def clockOf? (hour minute second nanos : Nat) : Option (Nat × Nat) :=
  if hour ≤ 23 ∧ minute ≤ 59 ∧ second ≤ 60 then
    some (hour * 3600 + minute * 60 + min second 59, nanos + if second = 60 then 1000000000 else 0)
  else none

/-- The instant of a date and a clock time `offset` seconds east of UTC. -/
def instantOf? (d : Date) (clock : Nat × Nat) (offset : Int) : Option Instant :=
  if d.IsValid then Instant.ofUnix? (d.toDays * 86400 + clock.1 - offset) clock.2 else none

/-! ## RFC 3339 -/

/-- The offset that ends an RFC 3339 time, in seconds. -/
def readOffset : List Char → Option Int
  | ['Z'] => some 0
  | ['z'] => some 0
  | c :: rest =>
    if c = '+' ∨ c = '-' ∨ c = '−' then do
      let (hours, rest) ← fixedNumber 2 rest
      let rest ← expect ':' rest
      let (minutes, rest) ← fixedNumber 2 rest
      if rest.isEmpty && minutes ≤ 59 && hours ≤ 23 then
        let size : Int := hours * 3600 + minutes * 60
        some (if c = '+' then size else -size)
      else none
    else none
  | [] => none

def readRfc3339 (cs : List Char) : Option Instant := do
  let (year, cs) ← fixedNumber 4 cs
  let cs ← expect '-' cs
  let (month, cs) ← fixedNumber 2 cs
  let cs ← expect '-' cs
  let (day, cs) ← fixedNumber 2 cs
  let cs ← match cs with
    | c :: rest => if c = 'T' ∨ c = 't' ∨ c = ' ' then some rest else none
    | [] => none
  let (hour, cs) ← fixedNumber 2 cs
  let cs ← expect ':' cs
  let (minute, cs) ← fixedNumber 2 cs
  let cs ← expect ':' cs
  let (second, cs) ← fixedNumber 2 cs
  let (nanos, cs) ← optionalFraction cs
  let offset ← readOffset cs
  let clock ← clockOf? hour minute second nanos
  instantOf? ⟨year, month, day⟩ clock offset

/-! ## Local forms -/

def looseDate (cs : List Char) : Option (Date × List Char) := do
  let (year, cs) ← looseYear cs
  let cs ← expect '-' cs
  let (month, cs) ← looseNumber 2 cs
  let cs ← expect '-' cs
  let (day, cs) ← looseNumber 2 cs
  some (⟨year, month, day⟩, cs)

/-- A clock time with an optional fraction that ends the text. -/
def looseClock (cs : List Char) : Option (Nat × Nat) := do
  let (hour, cs) ← looseNumber 2 cs
  let cs ← expect ':' cs
  let (minute, cs) ← looseNumber 2 cs
  let cs ← expect ':' cs
  let (second, cs) ← looseNumber 2 cs
  let (nanos, cs) ← optionalFraction cs
  if cs.isEmpty then clockOf? hour minute second nanos else none

def readLocal (cs : List Char) : Option Instant := do
  let (date, cs) ← looseDate cs
  let cs ← expect 'T' cs
  let clock ← looseClock cs
  instantOf? date clock 0

/-- The text without one final `Z`. -/
def dropZulu (cs : List Char) : List Char := if cs.getLast? = some 'Z' then cs.dropLast else cs

def readDate (cs : List Char) : Option Instant := do
  let (date, cs) ← looseDate (dropZulu cs)
  if cs.isEmpty then instantOf? date (0, 0) 0 else none

def readDateTime (text : List Char) : Option Instant :=
  let cs := trim text
  readRfc3339 cs <|> readLocal cs <|> readDate cs

def readTime (text : List Char) : Option Instant :=
  let cs := trim text
  match readInt64 cs with
  | .ok millis => Instant.ofMillis? millis.toInt
  | .error _ => do
    let clock ← looseClock (dropZulu cs)
    instantOf? ⟨1970, 1, 1⟩ clock 0

end GraphMarshal.Calendar
