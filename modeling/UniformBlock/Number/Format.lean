/-!
# Binary floating-point formats

The non-negative numbers of a binary format are numbered in increasing order by
natural numbers, their *codes*: zero has code `0`, and the code that follows the
largest finite number stands for infinity. A code is at the same time the bit
pattern of its number without the sign.

In units of the least positive number, the numbers with codes below
`2 ^ precision` are the codes themselves; from there on each further
`2 ^ (precision - 1)` codes double the step. `Format.round` gives the code of
the number nearest to an exact quotient, and `Format.units` reads a code back.

Rounding happens in one place, `divRound`: reading a literal, multiplying two numbers
and printing a fixed number of places all reduce to it.
-/

namespace UniformBlock

/-- The natural number nearest to `num / den`, the even one of two equally near
ones. -/
def divRound (num den : Nat) : Nat :=
  let q := num / den
  let r := num % den
  if den < 2 * r ∨ (den = 2 * r ∧ q % 2 = 1) then q + 1 else q

/-- The rounded quotient is the whole one, when the remainder is at most half a unit,
or the number after it, when the remainder is at least that. -/
theorem divRound_mul_cases (num den : Nat) :
    (divRound num den * den + num % den = num ∧ 2 * (num % den) ≤ den) ∨
      (divRound num den * den + num % den = num + den ∧ den ≤ 2 * (num % den)) := by
  have hdiv : num / den * den + num % den = num := Nat.div_add_mod' num den
  unfold divRound
  simp only
  split
  · rw [Nat.add_mul, Nat.one_mul]
    omega
  · omega

/-- The rounded quotient lies at most half a unit above the exact one. -/
theorem two_mul_divRound_mul_le (num den : Nat) :
    2 * (divRound num den * den) ≤ 2 * num + den := by
  rcases divRound_mul_cases num den with h | h
  · omega
  · omega

/-- The rounded quotient lies at most half a unit below the exact one. -/
theorem two_mul_le_two_mul_divRound_mul (num : Nat) {den : Nat} (hden : 0 < den) :
    2 * num ≤ 2 * (divRound num den * den) + den := by
  have hlt : num % den < den := Nat.mod_lt num hden
  rcases divRound_mul_cases num den with h | h
  · omega
  · omega

theorem divRound_mul_right (n : Nat) {den : Nat} (hden : 0 < den) :
    divRound (n * den) den = n := by
  have hq : n * den / den = n := Nat.mul_div_cancel n hden
  have hr : n * den % den = 0 := Nat.mul_mod_left n den
  unfold divRound
  simp only [hq, hr]
  rw [if_neg]
  omega

/-- A binary format. Its least positive number is `2 ^ -scale`, a significand
has `precision` bits, and `infinity` is the code of infinity. -/
structure Format where
  precision : Nat
  scale : Nat
  infinity : Nat

namespace Format

def binary32 : Format := ⟨24, 149, 0x7F800000⟩

def binary64 : Format := ⟨53, 1074, 0x7FF0000000000000⟩

/-- The number of doublings of the step at a number that lies `whole` units
above zero. -/
def doublings (f : Format) (whole : Nat) : Nat :=
  if whole = 0 then 0 else whole.log2 + 1 - f.precision

/-- The code of the number nearest to `num / den`; of two equally near ones it
is the one with an even significand. A quotient beyond the largest number
rounds to infinity. -/
def round (f : Format) (num den : Nat) : Nat :=
  let scaled := num * Nat.pow 2 f.scale
  let d := f.doublings (scaled / den)
  min (d * Nat.pow 2 (f.precision - 1) + divRound scaled (den * Nat.pow 2 d)) f.infinity

/-- The finite number with a given code, in units of the least positive one. -/
def units (f : Format) (code : Nat) : Nat :=
  let d := code / Nat.pow 2 (f.precision - 1) - 1
  (code - d * Nat.pow 2 (f.precision - 1)) * Nat.pow 2 d

def denominator (f : Format) : Nat := Nat.pow 2 f.scale

def mul (f : Format) (a b : Nat) : Nat :=
  f.round (f.units a * f.units b) (f.denominator * f.denominator)

def div (f : Format) (a b : Nat) : Nat := f.round (f.units a) (f.units b)

@[simp] theorem round_zero (f : Format) (den : Nat) : f.round 0 den = 0 := by
  simp [round, doublings, divRound]

end Format

end UniformBlock
