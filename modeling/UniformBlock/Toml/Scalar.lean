import UniformBlock.Json.Numeral
import UniformBlock.Json.Quoted
import UniformBlock.Number.Literal
import UniformBlock.Toml.Basic

/-!
# Numbers, dates and times of TOML

The functions take a number, a date or a time off the front of a text and return
the rest. Underscores may separate the digits of a number. Integers have to fit
64 bits with sign; a decimal number may not be too large for the 64-bit binary
format, unless it is negative. Dates are dates of the calendar.
-/

namespace UniformBlock

namespace Toml

/-! ## Numbers -/

/-- Take further digits, each of which may follow an underscore; `digits` holds
those taken so far in reverse. -/
def takeMoreDigits (isDigit : Char → Bool) (digits : List Char) :
    List Char → List Char × List Char
  | [] => (digits.reverse, [])
  | [c] => if isDigit c then ((c :: digits).reverse, []) else (digits.reverse, [c])
  | c :: d :: cs =>
    if isDigit c then takeMoreDigits isDigit (c :: digits) (d :: cs)
    else if c = '_' ∧ isDigit d then takeMoreDigits isDigit (d :: digits) cs
    else (digits.reverse, c :: d :: cs)

def takeRun? (isDigit : Char → Bool) : List Char → Option (List Char × List Char)
  | [] => none
  | c :: cs => if isDigit c then some (takeMoreDigits isDigit [c] cs) else none

/-- Take a whole number: a zero alone, or digits that do not begin with zero. -/
def takeWhole? : List Char → Option (List Char × List Char)
  | '0' :: cs => some (['0'], cs)
  | cs => takeRun? isDecimalDigit cs

/-- Take a sign, if there is one. The result says whether it is a minus. -/
def takeSign : List Char → Option Bool × List Char
  | '-' :: cs => (some true, cs)
  | '+' :: cs => (some false, cs)
  | cs => (none, cs)

def takeFraction? : List Char → Option (Option (List Char) × List Char)
  | '.' :: cs => (takeRun? isDecimalDigit cs).map fun r => (some r.1, r.2)
  | cs => some (none, cs)

def powerValue (digits : List Char) : Nat :=
  digits.foldl (fun acc c =>
    if acc < Exponent.limit then 10 * acc + decimalDigitValue c else acc) 0

def takeExponent? : List Char → Option (Option Int × List Char)
  | [] => some (none, [])
  | c :: cs =>
    if c = 'e' ∨ c = 'E' then
      let (sign, rest) := takeSign cs
      (takeRun? isDecimalDigit rest).map fun r =>
        let power : Int := powerValue r.1
        (some (if sign = some true then -power else power), r.2)
    else
      some (none, c :: cs)

/-- The least number that the 64-bit binary format rounds to infinity. -/
def overflow : Nat := Nat.pow 2 1024 - Nat.pow 2 970

/-- The number that digits spell, times a power of ten, is too large for the
64-bit binary format. The number of its digits before the point decides unless it
is the largest possible one. -/
def isHuge (digits : List Char) (exponent : Int) : Bool :=
  let significant := digits.dropWhile (· == '0')
  let size : Int := significant.length + exponent
  if significant = [] ∨ size < 309 then false
  else if 309 < size then true
  else
    overflow * Nat.pow 10 (-exponent).toNat ≤
      decimalValue significant * Nat.pow 10 exponent.toNat

def halfRange : Nat := 0x8000000000000000

def fits (negative : Bool) (n : Nat) : Bool := if negative then n ≤ halfRange else n < halfRange

def takeDecimal? (negative : Bool) (cs : List Char) : Option (List Char) := do
  let (whole, cs) ← takeWhole? cs
  let (fraction, cs) ← takeFraction? cs
  let (exponent, cs) ← takeExponent? cs
  match fraction, exponent with
  | none, none => if fits negative (decimalValue whole) then some cs else none
  | _, _ =>
    let places := fraction.getD []
    let power : Int := exponent.getD 0
    if !negative && isHuge (whole ++ places) (power - places.length) then none
    else some cs

def valueIn (base : Nat) (digits : List Char) : Nat :=
  digits.foldl (fun acc c => base * acc + (Json.hexValue? c).getD 0) 0

def takeBased? (base : Nat) (cs : List Char) : Option (List Char) := do
  let (digits, rest) ← takeRun? (fun c => ((Json.hexValue? c).filter (· < base)).isSome) cs
  if fits false (valueIn base digits) then some rest else none

def takeNamed? (cs : List Char) : Option (List Char) :=
  if ['i', 'n', 'f'].isPrefixOf cs || ['n', 'a', 'n'].isPrefixOf cs then some (cs.drop 3)
  else none

def takeNumber? (cs : List Char) : Option (List Char) :=
  match cs with
  | '0' :: 'x' :: rest => takeBased? 16 rest
  | '0' :: 'o' :: rest => takeBased? 8 rest
  | '0' :: 'b' :: rest => takeBased? 2 rest
  | _ =>
    let (sign, rest) := takeSign cs
    (takeNamed? rest).or (takeDecimal? (sign = some true) rest)

/-! ## Dates and times -/

/-- Take the number that exactly the given number of digits spell, if it lies
between two bounds. -/
def takeCount? (digits least most : Nat) (cs : List Char) : Option (Nat × List Char) :=
  let taken := cs.take digits
  let value := decimalValue taken
  if taken.length = digits ∧ taken.all isDecimalDigit ∧ least ≤ value ∧ value ≤ most then
    some (value, cs.drop digits)
  else
    none

def takeChar? (c : Char) : List Char → Option (List Char)
  | [] => none
  | d :: cs => if d = c then some cs else none

def monthDays (year month : Nat) : Nat :=
  if month = 2 then
    if year % 4 = 0 ∧ (year % 100 ≠ 0 ∨ year % 400 = 0) then 29 else 28
  else if month = 4 ∨ month = 6 ∨ month = 9 ∨ month = 11 then 30
  else 31

def takeDate? (cs : List Char) : Option (List Char) := do
  let (year, cs) ← takeCount? 4 0 9999 cs
  let cs ← takeChar? '-' cs
  let (month, cs) ← takeCount? 2 1 12 cs
  let cs ← takeChar? '-' cs
  let (_, cs) ← takeCount? 2 1 (monthDays year month) cs
  pure cs

def takeSecondFraction? : List Char → Option (List Char)
  | '.' :: cs => if (cs.takeWhile isDecimalDigit).isEmpty then none
    else some (cs.dropWhile isDecimalDigit)
  | cs => some cs

/-- Take a time of day; a minute may have a leap second. -/
def takeTime? (cs : List Char) : Option (List Char) := do
  let (_, cs) ← takeCount? 2 0 23 cs
  let cs ← takeChar? ':' cs
  let (_, cs) ← takeCount? 2 0 59 cs
  let cs ← takeChar? ':' cs
  let (_, cs) ← takeCount? 2 0 60 cs
  takeSecondFraction? cs

def takeOffset? (cs : List Char) : Option (List Char) :=
  match cs with
  | [] => some []
  | c :: rest =>
    if c = 'Z' ∨ c = 'z' then some rest
    else if c = '+' ∨ c = '-' then do
      let (_, rest) ← takeCount? 2 0 23 rest
      let rest ← takeChar? ':' rest
      let (_, rest) ← takeCount? 2 0 59 rest
      pure rest
    else
      some (c :: rest)

def takeTimeOfDate? (cs : List Char) : Option (List Char) :=
  match cs with
  | [] => some []
  | c :: rest =>
    if c = 'T' ∨ c = 't' ∨ c = ' ' then
      match takeTime? rest with
      | some rest => takeOffset? rest
      | none => some (c :: rest)
    else
      some (c :: rest)

def takeMoment? (cs : List Char) : Option (List Char) :=
  match takeDate? cs with
  | some rest => takeTimeOfDate? rest
  | none => takeTime? cs

def takeScalar? (cs : List Char) : Option (Toml × List Char) :=
  match takeMoment? cs with
  | some rest => some (.moment, rest)
  | none => (takeNumber? cs).map fun rest => (.number, rest)

end Toml

end UniformBlock
