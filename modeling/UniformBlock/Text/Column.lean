/-!
# Whitespace, lines and columns of text

Whitespace is what has the Unicode property `White_Space`. A text is fitted into a
column of a given width by adding spaces; a text that is wider than its column stays
as it is. Widths count characters.
-/

namespace UniformBlock

namespace Text

def isBlank (c : Char) : Bool :=
  let n := c.toNat
  (0x09 ≤ n && n ≤ 0x0D) || n == 0x20 || n == 0x85 || n == 0xA0 || n == 0x1680 ||
    (0x2000 ≤ n && n ≤ 0x200A) || n == 0x2028 || n == 0x2029 || n == 0x202F ||
    n == 0x205F || n == 0x3000

def allBlank (s : String) : Bool := s.toList.all isBlank

/-- The number of lines of a text: the line feeds, and one more if text follows
the last of them. -/
def lineCount (s : String) : Nat :=
  let cs := s.toList
  let feeds := cs.count '\n'
  match cs.getLast? with
  | none => 0
  | some c => if c == '\n' then feeds else feeds + 1

def slack (width : Nat) (s : String) : Nat := width - s.length

def padRight (width : Nat) (s : String) : String :=
  s ++ String.ofList (List.replicate (slack width s) ' ')

def padLeft (width : Nat) (s : String) : String :=
  String.ofList (List.replicate (slack width s) ' ') ++ s

/-- A text in the middle of a column; an odd space goes to the right. -/
def center (width : Nat) (s : String) : String :=
  let left := slack width s / 2
  String.ofList (List.replicate left ' ') ++ s ++
    String.ofList (List.replicate (slack width s - left) ' ')

def cut (width : Nat) (s : String) : String := String.ofList (s.toList.take width)

end Text

end UniformBlock
