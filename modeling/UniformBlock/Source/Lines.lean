import UniformBlock.Source.Position

/-!
# Lines

`Lines` is an index of the places where the lines of a source begin. It answers
which text stands on a line and renders the line a report points at with a mark
under the column. Lines end with a line feed; carriage returns at the end of a
line do not belong to its text.
-/

namespace UniformBlock

structure Lines where
  source : Source
  starts : Array Nat

namespace Lines

/-- Collect the offset after each line feed; `offset` is the offset of the first
of the given bytes. -/
def startsFrom (offset : Nat) (acc : Array Nat) : List UInt8 → Array Nat
  | [] => acc
  | b :: bs =>
    startsFrom (offset + 1) (if b == Ascii.lineFeed then acc.push (offset + 1) else acc) bs

def ofSource (source : Source) : Lines := ⟨source, startsFrom 0 #[0] source.bytes⟩

def count (l : Lines) : Nat := l.starts.size

def trimReturns (s : String) : String :=
  String.ofList (s.toList.reverse.dropWhile (· == '\r')).reverse

/-- The text of a line, counted from one. There is none either where the slice of the
source is refused. -/
def line? (l : Lines) (n : UInt32) : Option String :=
  if n = 0 then none
  else
    match l.starts[n.toNat - 1]? with
    | none => none
    | some first =>
      let last := (l.starts[n.toNat]?.map (· - 1)).getD l.source.size
      (l.source.slice? first last).map trimReturns

def spaces (n : Nat) : String := String.ofList (List.replicate n ' ')

/-- The line of a position with a mark under its column, between two gutters.
Nothing is shown for a line that does not exist. -/
def excerpt (l : Lines) (p : Position) : String :=
  match l.line? p.line with
  | none => ""
  | some line =>
    let number := toString p.line.toNat
    let gutter := spaces number.length
    gutter ++ " |\n" ++
      number ++ " | " ++ line ++ "\n" ++
      gutter ++ " | " ++ spaces (p.column.toNat - 1) ++ "^\n"

def report (l : Lines) (p : Position) (message : String) : String :=
  "error: " ++ message ++ "\n" ++ "  --> " ++ p.text ++ "\n" ++ l.excerpt p

end Lines

end UniformBlock
