import UniformBlock.Block

/-!
# Documents

A document is a whole source. Reading it passes over comments, punctuation and
words, and reads a declaration after each word `uniform`, until the source ends
or a declaration has a fault. `read` gives the declarations up to there;
`scan` lays them out.
-/

namespace UniformBlock

namespace Document

def declarationKeyword : String := "uniform"

/-- The declarations of a source up to its end or its first fault. -/
structure Contents where
  declarations : List Declaration
  fault : Option Fault
deriving DecidableEq, Repr

theorem length_takeWord_toWord_lt {h : Head} (hend : h.toWord.atEnd = false) :
    h.toWord.takeWord.2.rest.length < h.rest.length :=
  Nat.lt_of_lt_of_le
    (Head.length_takeWord_lt (Head.atWord_of_skipGap?_eq_none (Head.skipGap?_toWord h) hend))
    (Head.length_toWord_le h)

theorem length_read_lt {h k l : Head} {declared : Nat} {result : Except Fault Declaration}
    (hk : h.toWord.keyword? declarationKeyword = some k)
    (hd : Declaration.read declared k = (result, l)) : l.rest.length < h.rest.length := by
  have hlt := Head.length_lt_of_keyword? (by decide) hk
  have hle := (Declaration.forward_read declared k).length_le
  rw [hd] at hle
  exact Nat.lt_of_le_of_lt hle (Nat.lt_of_lt_of_le hlt (Head.length_toWord_le h))

/-- Read on from a head, after `declared` declarations, which `acc` holds in
reverse. -/
def readFrom (h : Head) (declared : Nat) (acc : List Declaration) : Contents :=
  if _hend : h.toWord.atEnd = true then
    ⟨acc.reverse, none⟩
  else
    match _hk : h.toWord.keyword? declarationKeyword with
    | none => readFrom h.toWord.takeWord.2 declared acc
    | some k =>
      match _hd : Declaration.read declared k with
      | (.error fault, _) => ⟨acc.reverse, some fault⟩
      | (.ok d, l) => readFrom l (declared + 1) (d :: acc)
termination_by h.rest.length
decreasing_by
  · exact length_takeWord_toWord_lt (Bool.eq_false_iff.2 _hend)
  · exact length_read_lt _hk _hd

def read (source : Source) : Contents := readFrom (Head.start source) 0 []

/-- A source laid out: the block of its declarations up to its end or its first
fault. -/
structure Scan where
  block : Block
  fault : Option Fault
deriving DecidableEq, Repr

namespace Scan

def result (s : Scan) : Except Fault Block :=
  match s.fault with
  | none => .ok s.block
  | some fault => .error fault

end Scan

def scan (source : Source) : Except ArithmeticFault Scan := do
  let contents := read source
  let block ← Block.ofDeclarations contents.declarations
  pure ⟨block, contents.fault⟩

end Document

end UniformBlock
