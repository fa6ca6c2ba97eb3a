import UniformBlock.Source.Head

/-!
# Positions

A byte offset is what readers record. For a report it is resolved into a line
and a column, both counted from one; a column counts characters. Line and column
are 32-bit words.
-/

namespace UniformBlock

structure Position where
  offset : Nat
  line : UInt32
  column : UInt32
deriving DecidableEq, Repr, Inhabited

namespace Position

def start : Position := ⟨0, 1, 1⟩

/-- The part of the last line of the given bytes, in reverse. -/
def lastLine (before : List UInt8) : List UInt8 :=
  before.reverse.takeWhile (· != Ascii.lineFeed)

def charStarts (bs : List UInt8) : Nat := bs.countP (!Utf8.isContinuation ·)

/-- The position of a byte offset. An offset beyond the end of the source stands
for the end. -/
def resolve (source : Source) (offset : Nat) : Position :=
  let clamped := min offset source.size
  let before := source.bytes.take clamped
  { offset := clamped
    line := (1 + before.count Ascii.lineFeed).toUInt32
    column := (1 + charStarts (lastLine before)).toUInt32 }

/-- Line and column behind `n` more bytes of a text, the first of which is the one
at offset `i`. -/
def passBytes (s : String) : Nat → Nat → UInt32 → UInt32 → UInt32 × UInt32
  | 0, _, line, column => (line, column)
  | n + 1, i, line, column =>
    if h : i < s.utf8ByteSize then
      let b := s.getUTF8Byte ⟨i⟩ h
      if b == Ascii.lineFeed then passBytes s n (i + 1) (line + 1) 1
      else if Utf8.isContinuation b then passBytes s n (i + 1) line column
      else passBytes s n (i + 1) line (column + 1)
    else (line, column)

/-- The position of a byte offset in a text, found in one pass that does not list
the bytes of the text. -/
def ofText (s : String) (offset : Nat) : Position :=
  let clamped := min offset s.utf8ByteSize
  let mark := passBytes s clamped 0 1 1
  ⟨clamped, mark.1, mark.2⟩

def text (p : Position) : String := toString p.line.toNat ++ ":" ++ toString p.column.toNat

def isAfter (p q : Position) : Bool :=
  q.offset < p.offset ||
    (q.offset == p.offset &&
      (q.line < p.line || (q.line == p.line && q.column < p.column)))

end Position

end UniformBlock
