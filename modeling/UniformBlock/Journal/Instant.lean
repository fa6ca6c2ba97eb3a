/-!
# Instants

An instant is a number of seconds since the beginning of 1970 in universal time,
with nanoseconds. It is written as a date and a time of day with the offset
`+00:00`; the fraction of the second has the fewest of three, six or nine digits
that hold it, and is left out where it is zero. The nanoseconds may run on into a
leap second, which is written as the sixtieth of its minute.

Dates are computed in eras of 400 years, which all have the same number of days,
with years that begin in March, so that a leap day ends its year.
-/

namespace UniformBlock

structure Instant where
  seconds : Int
  nanos : Nat
deriving DecidableEq, Repr, Inhabited

structure Date where
  year : Int
  month : Nat
  day : Nat
deriving DecidableEq, Repr

namespace Date

/-- The days of an era of 400 years. -/
def eraDays : Int := 146097

/-- The days from the first of March of the year 0 to the beginning of 1970. -/
def epochDays : Int := 719468

def ofDays (days : Int) : Date :=
  let shifted := days + epochDays
  let era := shifted.fdiv eraDays
  let dayOfEra := (shifted.fmod eraDays).toNat
  let yearOfEra :=
    (dayOfEra - dayOfEra / 1460 + dayOfEra / 36524 - dayOfEra / 146096) / 365
  let dayOfYear := dayOfEra - (365 * yearOfEra + yearOfEra / 4 - yearOfEra / 100)
  let marchMonth := (5 * dayOfYear + 2) / 153
  let day := dayOfYear - (153 * marchMonth + 2) / 5 + 1
  let month := if marchMonth < 10 then marchMonth + 3 else marchMonth - 9
  let year : Int := (yearOfEra : Int) + era * 400
  ⟨if month ≤ 2 then year + 1 else year, month, day⟩

end Date

namespace Instant

def padded (width n : Nat) : String :=
  let digits := toString n
  String.ofList (List.replicate (width - digits.length) '0') ++ digits

/-- A year with four digits, and with a sign where it needs more or is
negative. -/
def yearText (year : Int) : String :=
  if 0 ≤ year ∧ year ≤ 9999 then padded 4 year.natAbs
  else (if year < 0 then "-" else "+") ++ padded 4 year.natAbs

def secondNanos : Nat := 1000000000

def fractionText (nanos : Nat) : String :=
  if nanos = 0 then ""
  else if nanos % 1000000 = 0 then "." ++ padded 3 (nanos / 1000000)
  else if nanos % 1000 = 0 then "." ++ padded 6 (nanos / 1000)
  else "." ++ padded 9 nanos

def daySeconds : Int := 86400

def text (t : Instant) : String :=
  let date := Date.ofDays (t.seconds.fdiv daySeconds)
  let second := (t.seconds.fmod daySeconds).toNat
  yearText date.year ++ "-" ++ padded 2 date.month ++ "-" ++ padded 2 date.day ++ "T" ++
    padded 2 (second / 3600) ++ ":" ++ padded 2 (second / 60 % 60) ++ ":" ++
    padded 2 (second % 60 + t.nanos / secondNanos) ++ fractionText (t.nanos % secondNanos) ++
    "+00:00"

end Instant

end UniformBlock
