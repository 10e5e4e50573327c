import GraphMarshal.Number.Digits

/-!
# Reading bounded integers

An optional sign and at least one decimal digit, within given bounds. The digits are taken from left to right: a
character that is no digit is reported before the overflow that it would cause, and an overflow before any later
character is looked at.
-/

namespace GraphMarshal.Number

inductive IntegerError where
  | empty
  | badDigit
  | tooLarge
  | tooSmall
deriving DecidableEq, Repr

def IntegerError.message : IntegerError → String
  | .empty => "cannot parse integer from empty string"
  | .badDigit => "invalid digit found in string"
  | .tooLarge => "number too large to fit in target type"
  | .tooSmall => "number too small to fit in target type"

/-- Digits of a number that is not negative, read onto `acc`. -/
def scanUp (hi : Int) : Int → List Char → Except IntegerError Int
  | acc, [] => .ok acc
  | acc, c :: rest =>
    match digitValue? c with
    | none => .error .badDigit
    | some d => if acc * 10 + d ≤ hi then scanUp hi (acc * 10 + d) rest else .error .tooLarge

/-- Digits of a negative number, read onto `acc`. -/
def scanDown (lo : Int) : Int → List Char → Except IntegerError Int
  | acc, [] => .ok acc
  | acc, c :: rest =>
    match digitValue? c with
    | none => .error .badDigit
    | some d => if lo ≤ acc * 10 - d then scanDown lo (acc * 10 - d) rest else .error .tooSmall

/-- The integer between `lo` and `hi` that a text denotes. -/
def readInteger (lo hi : Int) : List Char → Except IntegerError Int
  | [] => .error .empty
  | ['+'] => .error .badDigit
  | ['-'] => .error .badDigit
  | '+' :: ds => scanUp hi 0 ds
  | '-' :: ds => scanDown lo 0 ds
  | ds => scanUp hi 0 ds

def readInt8 (cs : List Char) : Except IntegerError Int8 :=
  (readInteger (-128) 127 cs).map Int8.ofInt

def readInt16 (cs : List Char) : Except IntegerError Int16 :=
  (readInteger (-32768) 32767 cs).map Int16.ofInt

def readInt32 (cs : List Char) : Except IntegerError Int32 :=
  (readInteger (-2147483648) 2147483647 cs).map Int32.ofInt

def readInt64 (cs : List Char) : Except IntegerError Int64 :=
  (readInteger (-9223372036854775808) 9223372036854775807 cs).map Int64.ofInt

end GraphMarshal.Number
