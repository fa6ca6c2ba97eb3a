/-!
# Bytes of the ASCII range

Names for the bytes the grammar is written with, and the three classes of
bytes it distinguishes: letters and digits (`isWord`), decimal digits
(`isDigit`) and blanks (`isBlank`). No byte of a multi-byte character belongs
to any of these classes, so a reading head that stops at such a byte always
stands on a character boundary.
-/

namespace UniformBlock

namespace Ascii

abbrev tab : UInt8 := 0x09
abbrev lineFeed : UInt8 := 0x0A
abbrev carriageReturn : UInt8 := 0x0D
abbrev space : UInt8 := 0x20
abbrev doubleQuote : UInt8 := 0x22
abbrev singleQuote : UInt8 := 0x27
abbrev openParen : UInt8 := 0x28
abbrev closeParen : UInt8 := 0x29
abbrev star : UInt8 := 0x2A
abbrev plus : UInt8 := 0x2B
abbrev comma : UInt8 := 0x2C
abbrev minus : UInt8 := 0x2D
abbrev point : UInt8 := 0x2E
abbrev slash : UInt8 := 0x2F
abbrev zero : UInt8 := 0x30
abbrev semicolon : UInt8 := 0x3B
abbrev equals : UInt8 := 0x3D
abbrev upperE : UInt8 := 0x45
abbrev lowerE : UInt8 := 0x65

def isDigit (b : UInt8) : Bool := 0x30 ≤ b && b ≤ 0x39

def isLetter (b : UInt8) : Bool :=
  (0x41 ≤ b && b ≤ 0x5A) || (0x61 ≤ b && b ≤ 0x7A)

/-- A byte of a word: a letter or a digit. -/
def isWord (b : UInt8) : Bool := isLetter b || isDigit b

/-- A blank: space, tab, carriage return or line feed. -/
def isBlank (b : UInt8) : Bool :=
  b == space || b == tab || b == carriageReturn || b == lineFeed

def isNewline (b : UInt8) : Bool := b == lineFeed || b == carriageReturn

def isSign (b : UInt8) : Bool := b == plus || b == minus

def digitValue (b : UInt8) : Nat := b.toNat - 0x30

theorem isDigit_iff {b : UInt8} :
    isDigit b = true ↔ 0x30 ≤ b.toNat ∧ b.toNat ≤ 0x39 := by
  simp [isDigit, UInt8.le_iff_toNat_le]

theorem isLetter_iff {b : UInt8} :
    isLetter b = true ↔
      (0x41 ≤ b.toNat ∧ b.toNat ≤ 0x5A) ∨ (0x61 ≤ b.toNat ∧ b.toNat ≤ 0x7A) := by
  simp [isLetter, UInt8.le_iff_toNat_le]

theorem isWord_of_isDigit {b : UInt8} (h : isDigit b = true) : isWord b = true := by
  simp [isWord, h]

/-- Every byte of a word lies in the ASCII range. -/
theorem toNat_lt_of_isWord {b : UInt8} (h : isWord b = true) : b.toNat < 0x80 := by
  simp only [isWord, Bool.or_eq_true, isLetter_iff, isDigit_iff] at h
  omega

end Ascii

end UniformBlock
