import UniformBlock.Json.Numeral
import UniformBlock.Json.Quoted

/-!
# JSON

A `Json` is a JSON text without its blanks. Numbers and strings are kept as they
are written: a number as a `Numeral`, a string and the name of a member as a
lexeme. What they denote is the business of the functions that decode them.

`render` writes a text without blanks, `renderPretty` one with a line for every
item and two spaces for every level.
-/

namespace UniformBlock

inductive Json where
  | null
  | bool (value : Bool)
  | number (value : Json.Numeral)
  | string (lexeme : List Char)
  | array (items : List Json)
  | object (members : List (List Char × Json))

namespace Json

def text (s : String) : Json := .string (escape s.toList)

def nat (n : Nat) : Json := .number (.ofNat n)

def word (n : UInt32) : Json := nat n.toNat

/-- The number of the 32-bit format; infinities have none and become `null`. -/
def single (x : Single) : Json := if x.isFinite then .number (.ofSingle x) else .null

def record (fields : List (String × Json)) : Json :=
  .object (fields.map fun f => (escape f.1.toList, f.2))

def quote (lexeme : List Char) : List Char := '"' :: (lexeme ++ ['"'])

mutual

def render : Json → List Char
  | null => "null".toList
  | bool true => "true".toList
  | bool false => "false".toList
  | number value => value.render
  | string lexeme => quote lexeme
  | array items => '[' :: (renderItems items ++ [']'])
  | object members => '\x7b' :: (renderMembers members ++ ['\x7d'])

def renderItems : List Json → List Char
  | [] => []
  | item :: items => render item ++ renderMoreItems items

def renderMoreItems : List Json → List Char
  | [] => []
  | item :: items => ',' :: (render item ++ renderMoreItems items)

def renderMembers : List (List Char × Json) → List Char
  | [] => []
  | (name, value) :: members => quote name ++ ':' :: render value ++ renderMoreMembers members

def renderMoreMembers : List (List Char × Json) → List Char
  | [] => []
  | (name, value) :: members =>
    ',' :: (quote name ++ ':' :: render value ++ renderMoreMembers members)

end

def newline (level : Nat) : List Char := '\n' :: List.replicate (2 * level) ' '

mutual

/-- A JSON text whose items and members stand on lines of their own, on the
given level. -/
def renderLines (level : Nat) : Json → List Char
  | null => "null".toList
  | bool true => "true".toList
  | bool false => "false".toList
  | number value => value.render
  | string lexeme => quote lexeme
  | array items => '[' :: (renderItemLines level true items ++ [']'])
  | object members => '\x7b' :: (renderMemberLines level true members ++ ['\x7d'])

/-- Items on lines of their own; the list ends with a line for its bracket
unless it is empty. -/
def renderItemLines (level : Nat) (first : Bool) : List Json → List Char
  | [] => if first then [] else newline level
  | item :: items =>
    (if first then [] else [',']) ++ newline (level + 1) ++ renderLines (level + 1) item ++
      renderItemLines level false items

def renderMemberLines (level : Nat) (first : Bool) : List (List Char × Json) → List Char
  | [] => if first then [] else newline level
  | (name, value) :: members =>
    (if first then [] else [',']) ++ newline (level + 1) ++ quote name ++ ':' :: ' ' ::
      renderLines (level + 1) value ++ renderMemberLines level false members

end

def compact (j : Json) : String := String.ofList j.render

def pretty (j : Json) : String := String.ofList (j.renderLines 0)

end Json

end UniformBlock
