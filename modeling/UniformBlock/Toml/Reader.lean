import UniformBlock.Toml.Lexeme
import UniformBlock.Toml.Scalar

/-!
# Reading TOML

`Toml.read?` reads a whole text: a list of statements, each on a line of its own,
which are the headers of tables and the assignments below them. Values may be
nested less than `maxDepth` deep.

Steps that enter an array or an inline table and steps to a next item are counted
by fuel; each of them takes at least one character, so the length of the text is
enough of it.
-/

namespace UniformBlock

namespace Toml

def takeWord? (word : List Char) (v : Toml) (cs : List Char) : Option (Toml × List Char) :=
  if word.isPrefixOf cs then some (v, cs.drop word.length) else none

mutual

def takeValue? : (fuel depth : Nat) → List Char → Option (Toml × List Char)
  | 0, _, _ => none
  | _ + 1, _, [] => none
  | fuel + 1, depth, c :: cs =>
    if c = '"' ∨ c = '\'' then (takeString? c cs).map fun r => (.string r.1, r.2)
    else if c = 't' then takeWord? "true".toList (.boolean true) (c :: cs)
    else if c = 'f' then takeWord? "false".toList (.boolean false) (c :: cs)
    else if c = '[' then
      match depth with
      | 0 => none
      | depth + 1 =>
        match skipFiller cs with
        | ']' :: rest => some (.array [], rest)
        | rest => (takeItems? fuel depth rest).map fun r => (.array r.1, r.2)
    else if c = '\x7b' then
      match depth with
      | 0 => none
      | depth + 1 =>
        match skipBlanks cs with
        | '\x7d' :: rest => some (.table [], rest)
        | rest => (takeFields? fuel depth [] rest).map fun r => (ofFields r.1, r.2)
    else takeScalar? (c :: cs)

/-- Take the items of an array, of which there is one, and its closing bracket. A
comma may follow the last item. -/
def takeItems? : (fuel depth : Nat) → List Char → Option (List Toml × List Char)
  | 0, _, _ => none
  | fuel + 1, depth, cs =>
    match takeValue? fuel depth cs with
    | none => none
    | some (item, rest) =>
      match skipFiller rest with
      | ']' :: rest => some ([item], rest)
      | ',' :: rest =>
        match skipFiller rest with
        | ']' :: rest => some ([item], rest)
        | rest => (takeItems? fuel depth rest).map fun r => (item :: r.1, r.2)
      | _ => none

/-- Take the fields of an inline table, of which there is one, and its closing
brace; `fields` holds those taken so far. -/
def takeFields? : (fuel depth : Nat) → Fields → List Char → Option (Fields × List Char)
  | 0, _, _, _ => none
  | fuel + 1, depth, fields, cs =>
    match takeAssignment? fuel depth cs with
    | none => none
    | some (((path, key), v), rest) =>
      match fields.assign? [] path key v with
      | none => none
      | some fields =>
        match skipBlanks rest with
        | '\x7d' :: rest => some (fields, rest)
        | ',' :: rest => takeFields? fuel depth fields rest
        | _ => none

def takeAssignment? : (fuel depth : Nat) → List Char →
    Option (((List String × String) × Toml) × List Char)
  | 0, _, _ => none
  | fuel + 1, depth, cs =>
    match takeKey? cs with
    | some (key, '=' :: rest) =>
      (takeValue? fuel depth (skipBlanks rest)).map fun r => ((key, r.1), r.2)
    | _ => none

end

/-- The fields of a text so far, and the header below which it stands. -/
structure Progress where
  fields : Fields := []
  header : List String := []

def takeHeader? (cs : List Char) : Option ((Bool × List String × String) × List Char) :=
  match cs with
  | '[' :: '[' :: rest =>
    match takeKey? rest with
    | some ((parents, key), ']' :: ']' :: rest) => some ((true, parents, key), rest)
    | _ => none
  | '[' :: rest =>
    match takeKey? rest with
    | some ((parents, key), ']' :: rest) => some ((false, parents, key), rest)
    | _ => none
  | _ => none

def takeStatement? (fuel : Nat) (p : Progress) (cs : List Char) :
    Option (Progress × List Char) :=
  if cs.head? = some '[' then
    match takeHeader? cs with
    | none => none
    | some ((element, parents, key), rest) =>
      match lineEnd? rest,
        if element then p.fields.openElement? parents key else p.fields.openTable? parents key with
      | some rest, some fields => some ({ fields, header := parents ++ [key] }, rest)
      | _, _ => none
  else
    match takeAssignment? fuel (maxDepth - 1) cs with
    | none => none
    | some (((path, key), v), rest) =>
      match lineEnd? rest, p.fields.assign? p.header path key v with
      | some rest, some fields => some ({ p with fields }, rest)
      | _, _ => none

def takeLines? : (fuel : Nat) → Progress → List Char → Option Fields
  | 0, _, _ => none
  | fuel + 1, p, cs =>
    match skipBlanks cs with
    | [] => some p.fields
    | rest =>
      match lineEnd? rest with
      | some rest => takeLines? fuel p rest
      | none =>
        match takeStatement? fuel p rest with
        | none => none
        | some (p, rest) => takeLines? fuel p rest

/-- A text without the mark of its encoding. -/
def skipMark (cs : List Char) : List Char :=
  match cs with
  | c :: rest => if c.toNat = 0xFEFF then rest else cs
  | [] => []

def read? (s : String) : Option Toml :=
  let cs := skipMark s.toList
  (takeLines? (4 * cs.length + 4) {} cs).map ofFields

end Toml

end UniformBlock
