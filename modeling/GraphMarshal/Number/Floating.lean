import GraphMarshal.Number.Shortest

/-!
# Text of floats

Floats are written with the fewest digits that read back, always positionally; a negative zero keeps its sign and the
non-finite values are `NaN`, `INF` and `-INF`. They are read from an optional sign and a number with a fraction and an
exponent, or one of the words `inf`, `infinity` and `nan` in any case; the nearest float counts, a tie going to the even
one.
-/

namespace GraphMarshal.Number

def Unpacked.text : Unpacked → List Char
  | .nan => ['N', 'a', 'N']
  | .infinite false => ['I', 'N', 'F']
  | .infinite true => ['-', 'I', 'N', 'F']
  | .finite negative m q narrow =>
    let body := if m = 0 then ['0'] else (shortest m q narrow).text
    if negative then '-' :: body else body

def doubleText (x : Float) : List Char := (BinaryFormat.double.unpack x.toBits.toNat).text

def singleText (x : Float32) : List Char := (BinaryFormat.single.unpack x.toBits.toNat).text

/-! ## Reading -/

/-- The number `mantissa · 10^exponent`. -/
structure Scientific where
  mantissa : Nat
  exponent : Int
deriving DecidableEq, Repr

/-- A sign, if there is one, and what follows it. -/
def splitSign : List Char → Bool × List Char
  | '-' :: rest => (true, rest)
  | '+' :: rest => (false, rest)
  | cs => (false, cs)

/-- What follows the mantissa: nothing, or an exponent of at least one digit. -/
def readExponent : List Char → Option Int
  | [] => some 0
  | c :: rest =>
    if c = 'e' ∨ c = 'E' then
      let (negative, ds) := splitSign rest
      if ds.isEmpty || !ds.all Char.isDigit then none
      else some (if negative then -(digitsValue ds : Int) else digitsValue ds)
    else none

/-- Digits around an optional point, at least one in all, and an optional exponent. -/
def readScientific (cs : List Char) : Option Scientific :=
  let whole := cs.takeWhile Char.isDigit
  let rest := cs.dropWhile Char.isDigit
  let (fraction, rest) := match rest with
    | '.' :: r => (r.takeWhile Char.isDigit, r.dropWhile Char.isDigit)
    | r => ([], r)
  if whole.isEmpty && fraction.isEmpty then none
  else (readExponent rest).map fun e =>
    ⟨digitsValue (whole ++ fraction), e - fraction.length⟩

/-- The nearest float. Beyond 10^400 on either side the answer is known without the power of ten. -/
def Scientific.toFloat (s : Scientific) : Float :=
  let magnitude := (toDigits 10 s.mantissa).length + s.exponent
  if s.mantissa = 0 ∨ magnitude < -400 then 0.0
  else if 400 < magnitude then 1.0 / 0.0
  else Float.ofScientific s.mantissa (s.exponent < 0) s.exponent.natAbs

def readFloat (cs : List Char) : Option Float :=
  let (negative, body) := splitSign cs
  let magnitude : Option Float :=
    let word := String.ofList (body.map Char.toLower)
    if word = "inf" ∨ word = "infinity" then some (1.0 / 0.0)
    else if word = "nan" then some (0.0 / 0.0)
    else (readScientific body).map Scientific.toFloat
  magnitude.map fun x => if negative then -x else x

end GraphMarshal.Number
