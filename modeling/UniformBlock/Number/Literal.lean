import UniformBlock.Number.Single
import UniformBlock.Text.Ascii

/-!
# Number literals

A float literal has an optional sign, digits with an optional fraction, and an
optional exponent; an integer literal has an optional sign and digits. Each is
taken off the front of the input as far as it goes: an exponent mark without
digits, or a point without any digit beside it, is left where it stands.

`bytes` writes a literal the way it was read, so a literal and the rest of the
input always make up the input.
-/

namespace UniformBlock

open Ascii

/-- Take a sign off the front, if there is one. -/
def takeSign : List UInt8 → Option UInt8 × List UInt8
  | [] => (none, [])
  | b :: bs => if isSign b then (some b, bs) else (none, b :: bs)

def isNegative (sign : Option UInt8) : Bool := sign == some minus

def digitsValue (digits : List UInt8) : Nat :=
  digits.foldl (fun acc d => 10 * acc + digitValue d) 0

def signed (sign : Option UInt8) (n : Nat) : Int :=
  if isNegative sign then -(n : Int) else n

theorem takeSign_append (bs : List UInt8) : (takeSign bs).1.toList ++ (takeSign bs).2 = bs := by
  cases bs with
  | nil => rfl
  | cons b bs =>
    by_cases hb : isSign b = true
    · simp [takeSign, hb]
    · simp [takeSign, hb]

structure Exponent where
  mark : UInt8
  sign : Option UInt8
  digits : List UInt8
deriving DecidableEq, Repr

namespace Exponent

def bytes (e : Exponent) : List UInt8 := e.mark :: (e.sign.toList ++ e.digits)

/-- An exponent that has come this far lies beyond every number of the format,
and its remaining digits are passed over. -/
def limit : Nat := 0x10000

/-- The exponent without its sign, as far as it counts. -/
def magnitude (e : Exponent) : Nat :=
  e.digits.foldl (fun acc d => if acc < limit then 10 * acc + digitValue d else acc) 0

def value (e : Exponent) : Int := signed e.sign e.magnitude

/-- Take an exponent off the front: a mark, an optional sign and at least one
digit. -/
def take? : List UInt8 → Option Exponent
  | [] => none
  | b :: bs =>
    if b == lowerE || b == upperE then
      let (sign, rest) := takeSign bs
      match rest.takeWhile isDigit with
      | [] => none
      | digits => some ⟨b, sign, digits⟩
    else
      none

end Exponent

/-- A float literal. The fraction is present when there is a point. -/
structure FloatLiteral where
  sign : Option UInt8
  whole : List UInt8
  fraction : Option (List UInt8)
  exponent : Option Exponent
deriving DecidableEq, Repr

namespace FloatLiteral

def bytes (l : FloatLiteral) : List UInt8 :=
  l.sign.toList ++ l.whole ++ (l.fraction.map (point :: ·)).getD [] ++
    (l.exponent.map Exponent.bytes).getD []

def length (l : FloatLiteral) : Nat := l.bytes.length

/-- Take a fraction off the front: a point and digits, where there must be a
digit on at least one side of the point. -/
def takeFraction? (whole : List UInt8) : List UInt8 → Option (List UInt8)
  | [] => none
  | b :: bs =>
    let digits := bs.takeWhile isDigit
    if b ≠ point ∨ (whole = [] ∧ digits = []) then none else some digits

/-- Take the longest float literal off the front. -/
def take? (bs : List UInt8) : Option FloatLiteral :=
  let (sign, afterSign) := takeSign bs
  let whole := afterSign.takeWhile isDigit
  let afterWhole := afterSign.drop whole.length
  let fraction := takeFraction? whole afterWhole
  if whole = [] ∧ fraction = none then
    none
  else
    let afterFraction := afterWhole.drop ((fraction.map (·.length + 1)).getD 0)
    some ⟨sign, whole, fraction, Exponent.take? afterFraction⟩

/-- The number nearest to what the literal denotes. -/
def value (l : FloatLiteral) : Single :=
  let digits := (l.whole ++ l.fraction.getD []).map digitValue
  let significant := digits.dropWhile (· == 0)
  let leadingZeros := digits.length - significant.length
  let exponent := (l.exponent.map Exponent.value).getD 0
  Single.ofDigits (isNegative l.sign) significant
    ((l.whole.length : Int) - leadingZeros + exponent)

end FloatLiteral

structure IntegerLiteral where
  sign : Option UInt8
  digits : List UInt8
deriving DecidableEq, Repr

namespace IntegerLiteral

def bytes (l : IntegerLiteral) : List UInt8 := l.sign.toList ++ l.digits

def length (l : IntegerLiteral) : Nat := l.bytes.length

def take? (bs : List UInt8) : Option IntegerLiteral :=
  let (sign, rest) := takeSign bs
  match rest.takeWhile isDigit with
  | [] => none
  | digits => some ⟨sign, digits⟩

def value (l : IntegerLiteral) : Int := signed l.sign (digitsValue l.digits)

def inRange (n : Int) : Bool := -2147483648 ≤ n && n < 2147483648

end IntegerLiteral

end UniformBlock
