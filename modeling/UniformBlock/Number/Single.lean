import UniformBlock.Number.Format

/-!
# Single-precision numbers

A `Single` is a 32-bit pattern: a sign bit and a code of `Format.binary32`. All
operations are exact computations in natural numbers followed by one rounding,
so every result is a fact of arithmetic. No operation here produces a pattern
that is not a number.
-/

namespace UniformBlock

structure Single where
  bits : UInt32
deriving DecidableEq, Repr, Inhabited

namespace Single

def signBit : Nat := 0x80000000

def ofCode (negative : Bool) (code : Nat) : Single :=
  ⟨((if negative then signBit else 0) + code).toUInt32⟩

def negative (x : Single) : Bool := signBit ≤ x.bits.toNat

def code (x : Single) : Nat := x.bits.toNat % signBit

def zero : Single := ⟨0⟩

def one : Single := ⟨0x3F800000⟩

def isFinite (x : Single) : Bool := x.code < Format.binary32.infinity

def isNaN (x : Single) : Bool := Format.binary32.infinity < x.code

/-- The two patterns denote equal numbers: they are the same pattern of a
number, or both are zeros of either sign. -/
def agrees (x y : Single) : Bool :=
  (x == y && !x.isNaN) || (x.code == 0 && y.code == 0)

def ofQuotient (negative : Bool) (num den : Nat) : Single :=
  ofCode negative (Format.binary32.round num den)

/-- The exact magnitude of a finite number, as a numerator over
`Format.binary32.denominator`. -/
def units (x : Single) : Nat := Format.binary32.units x.code

def scale (x factor : Single) : Single :=
  if x.isFinite then
    ofQuotient x.negative (x.units * factor.units)
      (Format.binary32.denominator * Format.binary32.denominator)
  else
    x

/-- The number of degrees in a radian. -/
def degreesPerRadian : Single := ⟨0x42652EE0⟩

/-- The largest decimal magnitude that is not beyond every finite number: a
number of at least `10 ^ maxMagnitude` rounds to infinity. -/
def maxMagnitude : Int := 39

/-- A number below `10 ^ minMagnitude` rounds to zero. -/
def minMagnitude : Int := -46

/-- The number nearest to `0.d₁d₂…dₙ × 10 ^ magnitude`, where the digits are
those of `digits` and the first of them is not zero unless `digits` is empty.
Magnitudes outside the range of the format are settled before any power of ten
is computed. -/
def ofDigits (negative : Bool) (digits : List Nat) (magnitude : Int) : Single :=
  if digits = [] ∨ magnitude ≤ minMagnitude then
    ofCode negative 0
  else if maxMagnitude < magnitude then
    ofCode negative Format.binary32.infinity
  else
    let significand := digits.foldl (fun acc d => 10 * acc + d) 0
    let exponent := magnitude - digits.length
    ofQuotient negative (significand * Nat.pow 10 exponent.toNat) (Nat.pow 10 (-exponent).toNat)

end Single

end UniformBlock
