import GraphMarshal.Number.Digits

/-!
# Shortest decimal digits of a binary float

A finite binary float is `m · 2^q`. The reals that round to it form an interval, whose ends belong to it exactly when
`m` is even; below a power of two the lower half of the interval is half as wide. The shortest digits are a point of
the coarsest decimal grid that meets the interval: the nearer one of the value's two neighbours on that grid, the upper
one in a tie.
-/

namespace GraphMarshal.Number

/-- A binary interchange format. -/
structure BinaryFormat where
  fractionBits : Nat
  exponentBits : Nat

def BinaryFormat.double : BinaryFormat := ⟨52, 11⟩

def BinaryFormat.single : BinaryFormat := ⟨23, 8⟩

inductive Unpacked where
  | nan
  | infinite (negative : Bool)
  /-- The number `m · 2^q`; `narrow` if the gap below it is half the gap above it. -/
  | finite (negative : Bool) (m : Nat) (q : Int) (narrow : Bool)
deriving DecidableEq, Repr

def BinaryFormat.unpack (f : BinaryFormat) (bits : Nat) : Unpacked :=
  let fraction := bits % Nat.pow 2 f.fractionBits
  let exponent := bits / Nat.pow 2 f.fractionBits % Nat.pow 2 f.exponentBits
  let negative := bits / Nat.pow 2 (f.fractionBits + f.exponentBits) % 2 = 1
  let bias : Int := Int.pow 2 (f.exponentBits - 1) - 1
  if exponent = Nat.pow 2 f.exponentBits - 1 then
    if fraction = 0 then .infinite negative else .nan
  else if exponent = 0 then .finite negative fraction (1 - bias - f.fractionBits) false
  else .finite negative (fraction + Nat.pow 2 f.fractionBits) (exponent - bias - f.fractionBits)
    (fraction = 0 && 1 < exponent)

/-- The number `digits · 10^exponent`. -/
structure Scaled where
  digits : Nat
  exponent : Int
deriving DecidableEq, Repr

/-- The interval of a float over a common denominator, and the float itself. -/
structure Interval where
  low : Nat
  value : Nat
  high : Nat
  denominator : Nat
  closed : Bool

def Interval.ofFloat (m : Nat) (q : Int) (narrow : Bool) : Interval :=
  let scale := Nat.pow 2 (q - 2).toNat
  { low := (4 * m - if narrow then 1 else 2) * scale
    value := 4 * m * scale
    high := (4 * m + 2) * scale
    denominator := Nat.pow 2 (2 - q).toNat
    closed := m % 2 = 0 }

/-- The point of the grid of multiples of `10^e` that stands for the float, if one lies in the interval. -/
def Interval.onGrid (i : Interval) (e : Int) : Option Scaled :=
  let up := Nat.pow 10 (-e).toNat
  let cell := i.denominator * Nat.pow 10 e.toNat
  let v := i.value * up
  let k := v / cell
  let lowFits := if i.closed then i.low * up ≤ k * cell else i.low * up < k * cell
  let highFits := if i.closed then (k + 1) * cell ≤ i.high * up else (k + 1) * cell < i.high * up
  if lowFits ∧ highFits then
    if v - k * cell < (k + 1) * cell - v then some ⟨k, e⟩ else some ⟨k + 1, e⟩
  else if lowFits then some ⟨k, e⟩
  else if highFits then some ⟨k + 1, e⟩
  else none

/-- The first grid from `10^e` downwards, `n` of them at most, with a point in the interval. -/
def Interval.search (i : Interval) : Nat → Int → Scaled
  | 0, e => ⟨0, e⟩
  | n + 1, e =>
    match i.onGrid e with
    | some s => s
    | none => i.search n (e - 1)

/-- The shortest digits of the positive float `m · 2^q`. The first grid tried is coarser than the float. -/
def shortest (m : Nat) (q : Int) (narrow : Bool) : Scaled :=
  let top : Int := m.log2 + q + 1
  (Interval.ofFloat m q narrow).search 25 ((top * 30103) / 100000 + 1)

/-- Positional text, without an exponent and without a trailing point. -/
def Scaled.text (s : Scaled) : List Char :=
  let ds := natText s.digits
  if 0 ≤ s.exponent then ds ++ List.replicate s.exponent.toNat '0'
  else
    let places := (-s.exponent).toNat
    let padded := List.replicate (places + 1 - ds.length) '0' ++ ds
    let whole := padded.length - places
    padded.take whole ++ '.' :: padded.drop whole

end GraphMarshal.Number
