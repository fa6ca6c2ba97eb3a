import UniformBlock.Number.Format

/-!
# Sizes in bytes, for a reader

A size is shown in the largest unit of which there is at least one, with two
places, except that single bytes are shown exactly. The size is first rounded to
a 64-bit binary number; dividing that by 1024 loses nothing.
-/

namespace UniformBlock

namespace ByteSize

def unitNames : List String := ["B", "KB", "MB", "GB"]

/-- The size as a 64-bit binary number, rounded to the nearest one. -/
def rounded (size : Nat) : Nat :=
  Format.binary64.units (Format.binary64.round size 1) / Format.binary64.denominator

/-- The number of times a size can be divided by 1024 without falling below
one, at most `limit` times. -/
def unitOf (size : Nat) : Nat → Nat
  | 0 => 0
  | limit + 1 => if size < 1024 then 0 else unitOf (size / 1024) limit + 1

def places (hundredths : Nat) : String :=
  let fraction := hundredths % 100
  toString (hundredths / 100) ++ "." ++ (if fraction < 10 then "0" else "") ++ toString fraction

def text (size : Nat) : String :=
  let exact := rounded size
  match unitOf exact (unitNames.length - 1) with
  | 0 => toString size ++ " B"
  | unit =>
    places (divRound (exact * 100) (Nat.pow 1024 unit)) ++ " " ++ unitNames.getD unit ""

end ByteSize

end UniformBlock
