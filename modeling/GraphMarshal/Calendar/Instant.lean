import GraphMarshal.Calendar.Date
import GraphMarshal.Number.Digits

/-!
# Instants

A point of Coordinated Universal Time with nanoseconds. Nanoseconds from 10^9 on stand for a leap second, which only the
last second of a minute can have. Instants are written by RFC 3339, with the fewest of 0, 3, 6 and 9 places that lose
nothing.
-/

namespace GraphMarshal.Calendar

/-- The first second of the year -262143. -/
def minSeconds : Int := -8334601228800

/-- The last second of the year 262142. -/
def maxSeconds : Int := 8210266876799

def IsInstant (seconds : Int) (nanos : Nat) : Prop :=
  minSeconds ≤ seconds ∧ seconds ≤ maxSeconds ∧ nanos < 2000000000 ∧
    (1000000000 ≤ nanos → seconds % 60 = 59)

instance (s : Int) (n : Nat) : Decidable (IsInstant s n) := by unfold IsInstant; infer_instance

structure Instant where
  /-- Seconds from 1970-01-01T00:00:00Z, leap seconds not counted. -/
  seconds : Int
  nanos : Nat
  isInstant : IsInstant seconds nanos
deriving DecidableEq

namespace Instant

def ofUnix? (seconds : Int) (nanos : Nat) : Option Instant :=
  if h : IsInstant seconds nanos then some ⟨seconds, nanos, h⟩ else none

/-- The instant a number of milliseconds from 1970-01-01T00:00:00Z. -/
def ofMillis? (millis : Int) : Option Instant :=
  ofUnix? (millis / 1000) ((millis % 1000).toNat * 1000000)

def date (t : Instant) : Date := Date.ofDays (t.seconds / 86400)

/-- Seconds from midnight. -/
def secondOfDay (t : Instant) : Nat := (t.seconds % 86400).toNat

def yearText (y : Int) : List Char :=
  if 0 ≤ y ∧ y ≤ 9999 then Number.paddedText 4 y.toNat
  else (if y < 0 then '-' else '+') :: Number.paddedText 4 y.natAbs

def fractionText (nanos : Nat) : List Char :=
  if nanos = 0 then []
  else if nanos % 1000000 = 0 then '.' :: Number.paddedText 3 (nanos / 1000000)
  else if nanos % 1000 = 0 then '.' :: Number.paddedText 6 (nanos / 1000)
  else '.' :: Number.paddedText 9 nanos

def dateText (d : Date) : List Char :=
  yearText d.year ++ '-' :: Number.paddedText 2 d.month ++ '-' :: Number.paddedText 2 d.day

/-- Clock time; a leap second is second 60. -/
def clockText (secondOfDay nanos : Nat) : List Char :=
  Number.paddedText 2 (secondOfDay / 3600) ++ ':' :: Number.paddedText 2 (secondOfDay / 60 % 60) ++
    ':' :: Number.paddedText 2 (secondOfDay % 60 + nanos / 1000000000) ++
    fractionText (nanos % 1000000000)

def text (t : Instant) : List Char :=
  dateText t.date ++ 'T' :: clockText t.secondOfDay t.nanos ++ ['Z']

end Instant

end GraphMarshal.Calendar
