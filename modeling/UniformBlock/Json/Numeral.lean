import UniformBlock.Number.Shortest

/-!
# Numerals of JSON

A `Numeral` is a number as it is written: sign, whole digits, an optional
fraction and an optional exponent.

Numbers of the 32-bit format are written with the fewest digits that read back:
without exponent where the first digit stands for a power of ten between
`10 ^ plainFrom` and `10 ^ plainTo`, and then always with a fraction.

Reading a numeral as a number of the 32-bit format goes through the 64-bit
format unless the numeral is an integer of 64 bits. The digits that fit a 64-bit
significand are kept, the others only count as powers of ten; the power of ten
is applied by one rounded multiplication or division, and a result beyond the
64-bit format is refused.
-/

namespace UniformBlock

def decimalDigits (n : Nat) : List Char := Nat.toDigits 10 n

def isDecimalDigit (c : Char) : Bool := '0' ≤ c && c ≤ '9'

def decimalDigitValue (c : Char) : Nat := c.toNat - 0x30

def decimalValue (digits : List Char) : Nat :=
  digits.foldl (fun acc c => 10 * acc + decimalDigitValue c) 0

namespace Json

structure Numeral where
  negative : Bool
  whole : List Char
  fraction : Option (List Char)
  exponent : Option (Bool × List Char)
deriving DecidableEq, Repr

namespace Numeral

def render (n : Numeral) : List Char :=
  (if n.negative then ['-'] else []) ++ n.whole ++
    (match n.fraction with
      | none => []
      | some digits => '.' :: digits) ++
    (match n.exponent with
      | none => []
      | some (negative, digits) => 'e' :: (if negative then '-' else '+') :: digits)

def ofNat (n : Nat) : Numeral := ⟨false, decimalDigits n, none, none⟩

/-! ## Writing numbers of the 32-bit format -/

/-- The least power of ten of a first digit written without exponent. -/
def plainFrom : Int := -6

/-- The largest power of ten of a first digit written without exponent. -/
def plainTo : Int := 12

def zeros (n : Nat) : List Char := List.replicate n '0'

/-- The numeral of `d₁.d₂…dₙ × 10 ^ exponent`. -/
def ofDecimal (negative : Bool) (digits : List Char) (exponent : Int) : Numeral :=
  if 0 ≤ exponent ∧ exponent ≤ plainTo then
    let whole := exponent.toNat + 1
    let fraction := digits.drop whole
    ⟨negative, digits.take whole ++ zeros (whole - digits.length),
      some (if fraction = [] then ['0'] else fraction), none⟩
  else if plainFrom ≤ exponent ∧ exponent < 0 then
    ⟨negative, ['0'], some (zeros ((-exponent).toNat - 1) ++ digits), none⟩
  else
    let fraction := digits.drop 1
    ⟨negative, digits.take 1, if fraction = [] then none else some fraction,
      some (decide (exponent < 0), decimalDigits exponent.natAbs)⟩

def ofSingle (x : Single) : Numeral :=
  if x.code = 0 then
    ⟨x.negative, ['0'], some ['0'], none⟩
  else
    let decimal := Shortest.digits x
    ofDecimal x.negative (decimalDigits decimal.significand) decimal.exponent

/-! ## Reading -/

def isInteger (n : Numeral) : Bool := n.fraction.isNone && n.exponent.isNone

/-- The 64-bit word a numeral spells: a non-negative integer without sign. -/
def toNat? (n : Numeral) : Option Nat :=
  let value := decimalValue n.whole
  if n.isInteger && !n.negative && value < UInt64.size then some value else none

def toWord? (n : Numeral) : Option UInt32 :=
  let value := decimalValue n.whole
  if n.isInteger && !n.negative && value < UInt32.size then some value.toUInt32 else none

structure Scaled where
  significand : Nat
  exponent : Int

/-- Take up the whole digits: once a digit does not fit, it and all that follow
count as powers of ten. -/
def takeWhole (s : Scaled) : List Char → Scaled
  | [] => s
  | c :: cs =>
    let next := 10 * s.significand + decimalDigitValue c
    if next < UInt64.size then takeWhole ⟨next, s.exponent⟩ cs
    else ⟨s.significand, s.exponent + cs.length + 1⟩

/-- Take up the digits of a fraction: once a digit does not fit, it and all that
follow are left out. -/
def takeFraction (s : Scaled) : List Char → Scaled
  | [] => s
  | c :: cs =>
    let next := 10 * s.significand + decimalDigitValue c
    if next < UInt64.size then takeFraction ⟨next, s.exponent - 1⟩ cs else s

def maxPower : Nat := 308

/-- Divide a 64-bit number by a power of ten, at most `maxPower` at a time.
Three divisions leave nothing of any significand. -/
def divideByPower : Nat → Nat → Nat → Nat
  | 0, _, _ => 0
  | fuel + 1, code, power =>
    if power ≤ maxPower then Format.binary64.div code (Format.binary64.round (Nat.pow 10 power) 1)
    else
      divideByPower fuel (Format.binary64.div code (Format.binary64.round (Nat.pow 10 maxPower) 1))
        (power - maxPower)

/-- The 64-bit number of a scaled significand; `none` beyond the format. -/
def Scaled.code? (s : Scaled) : Option Nat :=
  let code := Format.binary64.round s.significand 1
  if s.significand = 0 then some 0
  else if s.exponent < 0 then some (divideByPower 3 code (-s.exponent).toNat)
  else if maxPower < s.exponent.toNat then none
  else
    let product := Format.binary64.mul code (Format.binary64.round (Nat.pow 10 s.exponent.toNat) 1)
    if product < Format.binary64.infinity then some product else none

/-- The largest exponent that is read. A larger one stands for zero when it is
negative or the significand is zero, and is refused otherwise. -/
def maxExponent : Nat := 2147483647

def code64? (n : Numeral) : Option Nat :=
  let s := takeFraction (takeWhole ⟨0, 0⟩ n.whole) (n.fraction.getD [])
  match n.exponent with
  | none => s.code?
  | some (negative, digits) =>
    let power := decimalValue digits
    if maxExponent < power then
      if s.significand = 0 || negative then some 0 else none
    else
      Scaled.code? ⟨s.significand, if negative then s.exponent - power else s.exponent + power⟩

/-- An integer of 64 bits, which is rounded once: any without sign, or one with
a sign that is neither zero nor below the least signed integer. -/
def isExact (n : Numeral) : Bool :=
  let value := decimalValue n.whole
  n.isInteger &&
    (if n.negative then 0 < value && value ≤ 0x8000000000000000 else value < UInt64.size)

/-- The number of the 32-bit format that a numeral spells; `none` beyond the
64-bit format. -/
def toSingle? (n : Numeral) : Option Single :=
  if n.isExact then
    some (Single.ofQuotient n.negative (decimalValue n.whole) 1)
  else
    n.code64?.map fun code =>
      Single.ofQuotient n.negative (Format.binary64.units code) Format.binary64.denominator

end Numeral

end Json

end UniformBlock
