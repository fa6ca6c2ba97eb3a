import UniformBlock.Number.Single

/-!
# Shortest decimals

`Shortest.digits x` is the decimal with the fewest digits that reads back as the
finite number `x`; among those it is the nearest to `x`, and of two equally near
ones the one with an even last digit. It is found by trying one digit, two
digits and so on. On each of these grids only the two neighbours of `x` have to
be tried, because the numbers that read back as `x` form an interval around it.
-/

namespace UniformBlock

namespace Shortest

/-- A positive decimal `d₁.d₂…dₙ × 10 ^ exponent`; its digits are those of
`significand`, which has no trailing zero. -/
structure Decimal where
  significand : Nat
  exponent : Int
deriving DecidableEq, Repr

/-- Nine digits distinguish all numbers of the 32-bit format. -/
def maxDigits : Nat := 9

/-- The exponents of ten that are tried begin at this one, negated. -/
def exponentBias : Nat := 50

/-- The exponent of the first digit of `num / den`: the largest `e` with
`10 ^ e ≤ num / den`, for quotients between `10 ^ -50` and `10 ^ 49`. -/
def firstExponent (num den : Nat) : Int :=
  let above (i : Nat) : Bool := num * Nat.pow 10 exponentBias < den * Nat.pow 10 (i + 1)
  (((List.range (2 * exponentBias)).find? above).getD 0 : Int) - exponentBias

def stripZeros : Nat → Nat → Nat
  | 0, n => n
  | fuel + 1, n => if n % 10 = 0 then stripZeros fuel (n / 10) else n

/-- The value of `n × 10 ^ exponent` reads back as the number with the given
code. -/
def readsBack (code n : Nat) (exponent : Int) : Bool :=
  Format.binary32.round (n * Nat.pow 10 exponent.toNat) (Nat.pow 10 (-exponent).toNat) == code

/-- The two neighbours of `num / den` among the multiples of `10 ^ exponent`,
the nearer one first, and the even one first when both are equally near. -/
def neighbours (num den : Nat) (exponent : Int) : List Nat :=
  let scaledNum := num * Nat.pow 10 (-exponent).toNat
  let scaledDen := den * Nat.pow 10 exponent.toNat
  let nearest := divRound scaledNum scaledDen
  let below := scaledNum / scaledDen
  if nearest = below then [below, below + 1] else [below + 1, below]

/-- Try the grids with `n`, `n + 1`, … digits. -/
def search (code num den : Nat) (first : Int) : Nat → Nat → Decimal
  | 0, _ => ⟨1, first⟩
  | fuel + 1, n =>
    let exponent := first - ((n : Int) - 1)
    match (neighbours num den exponent).find? (readsBack code · exponent) with
    | some found =>
      let carried : Int := if found = Nat.pow 10 n then 1 else 0
      ⟨stripZeros (n + 1) found, first + carried⟩
    | none => search code num den first fuel (n + 1)

def digits (x : Single) : Decimal :=
  let num := x.units
  let den := Format.binary32.denominator
  search x.code num den (firstExponent num den) maxDigits 1

end Shortest

end UniformBlock
