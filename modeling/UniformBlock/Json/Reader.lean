import UniformBlock.Json.Basic
import UniformBlock.Json.Library

/-!
# Reading JSON

`Json.read?` reads a JSON text with blanks between its parts and nothing after
it. Every step takes a part off the front and returns the rest. Steps that
enter an array or an object are counted by fuel; each of them takes at least one
character, so the length of the text is enough of it.

What was read is decoded as texts, words, numbers, and members of an object. A
structure may also stand as an array that lists the values of its members in order,
where those at the end may be left out; no member of it may be repeated, and unknown
ones are ignored. `Json.standard` puts all of this together as a library.
-/

namespace UniformBlock

namespace Json

def isBlank (c : Char) : Bool := c == ' ' || c == '\t' || c == '\n' || c == '\r'

def skipBlanks (cs : List Char) : List Char := cs.dropWhile isBlank

/-- Take a given character off the front, after blanks. -/
def expect? (c : Char) (cs : List Char) : Option (List Char) :=
  match skipBlanks cs with
  | [] => none
  | d :: rest => if d = c then some rest else none

def takeDigits? (cs : List Char) : Option (List Char × List Char) :=
  match cs.takeWhile isDecimalDigit with
  | [] => none
  | digits => some (digits, cs.dropWhile isDecimalDigit)

/-- Take whole digits: a zero alone, or digits that do not begin with zero. -/
def takeWhole? (cs : List Char) : Option (List Char × List Char) :=
  match takeDigits? cs with
  | none => none
  | some (digits, rest) =>
    if digits.head? = some '0' ∧ digits.length ≠ 1 then none else some (digits, rest)

def takeFraction? : List Char → Option (Option (List Char) × List Char)
  | '.' :: cs => (takeDigits? cs).map fun r => (some r.1, r.2)
  | cs => some (none, cs)

def takeExponentSign : List Char → Bool × List Char
  | '-' :: cs => (true, cs)
  | '+' :: cs => (false, cs)
  | cs => (false, cs)

def takeExponent? : List Char → Option (Option (Bool × List Char) × List Char)
  | [] => some (none, [])
  | c :: cs =>
    if c = 'e' ∨ c = 'E' then
      let (negative, rest) := takeExponentSign cs
      (takeDigits? rest).map fun r => (some (negative, r.1), r.2)
    else
      some (none, c :: cs)

def takeMinus : List Char → Bool × List Char
  | '-' :: cs => (true, cs)
  | cs => (false, cs)

def takeNumeral? (cs : List Char) : Option (Numeral × List Char) := do
  let (negative, cs) := takeMinus cs
  let (whole, cs) ← takeWhole? cs
  let (fraction, cs) ← takeFraction? cs
  let (exponent, cs) ← takeExponent? cs
  pure (⟨negative, whole, fraction, exponent⟩, cs)

def takeWord? (word : List Char) (j : Json) (cs : List Char) : Option (Json × List Char) :=
  if word.isPrefixOf cs then some (j, cs.drop word.length) else none

mutual

def takeValue? : Nat → List Char → Option (Json × List Char)
  | 0, _ => none
  | fuel + 1, cs =>
    match skipBlanks cs with
    | [] => none
    | c :: rest =>
      if c = 'n' then takeWord? "null".toList .null (c :: rest)
      else if c = 't' then takeWord? "true".toList (.bool true) (c :: rest)
      else if c = 'f' then takeWord? "false".toList (.bool false) (c :: rest)
      else if c = '"' then (takeLexeme? rest).map fun r => (.string r.1, r.2)
      else if c = '[' then
        match skipBlanks rest with
        | ']' :: more => some (.array [], more)
        | _ => (takeItems? fuel rest).map fun r => (.array r.1, r.2)
      else if c = '\x7b' then
        match skipBlanks rest with
        | '\x7d' :: more => some (.object [], more)
        | _ => (takeMembers? fuel rest).map fun r => (.object r.1, r.2)
      else (takeNumeral? (c :: rest)).map fun r => (.number r.1, r.2)

def takeItems? : Nat → List Char → Option (List Json × List Char)
  | 0, _ => none
  | fuel + 1, cs =>
    match takeValue? fuel cs with
    | none => none
    | some (item, rest) =>
      match skipBlanks rest with
      | ',' :: more => (takeItems? fuel more).map fun r => (item :: r.1, r.2)
      | ']' :: more => some ([item], more)
      | _ => none

def takeMembers? : Nat → List Char → Option (List (List Char × Json) × List Char)
  | 0, _ => none
  | fuel + 1, cs =>
    match (expect? '"' cs).bind takeLexeme? with
    | none => none
    | some (name, rest) =>
      match (expect? ':' rest).bind (takeValue? fuel) with
      | none => none
      | some (value, rest) =>
        match skipBlanks rest with
        | ',' :: more => (takeMembers? fuel more).map fun r => ((name, value) :: r.1, r.2)
        | '\x7d' :: more => some ([(name, value)], more)
        | _ => none

end

def read? (s : String) : Option Json :=
  let cs := s.toList
  match takeValue? (2 * cs.length + 1) cs with
  | none => none
  | some (j, rest) => if skipBlanks rest = [] then some j else none

/-! ## Decoding -/

def isNull : Json → Bool
  | null => true
  | _ => false

def toText? : Json → Option String
  | string lexeme => (unescape? lexeme).map String.ofList
  | _ => none

def toNat? : Json → Option Nat
  | number value => value.toNat?
  | _ => none

def toWord? : Json → Option UInt32
  | number value => value.toWord?
  | _ => none

def toSingle? : Json → Option Single
  | number value => value.toSingle?
  | _ => none

def toItems? : Json → Option (List Json)
  | array items => some items
  | _ => none

def toFields? : Json → Option (List (String × Json))
  | object members => members.mapM fun m => (unescape? m.1).map fun n => (String.ofList n, m.2)
  | _ => none

/-- A variant stands as its name, or as an object whose one member has the name and
the value `null`. -/
def toVariant? : Json → Option String
  | object [(name, null)] => (unescape? name).map String.ofList
  | j => j.toText?

def toStructure? (names : List String) : Json → Option (String → Option Json)
  | array items =>
    if items.length ≤ names.length then
      some fun name => (names.idxOf? name).bind fun i => items[i]?
    else
      none
  | j => do
    let fields ← j.toFields?
    if names.all fun name => (fields.filter (·.1 == name)).length ≤ 1 then
      some fun name => fields.lookup name
    else
      none

def standard : Library where
  Doc := Json
  null := .null
  bool := .bool
  nat := nat
  single := single
  text := text
  array := .array
  record := record
  write? j := some j.compact
  read? := read?
  isNull := isNull
  toNat? := toNat?
  toWord? := toWord?
  toSingle? := toSingle?
  toText? := toText?
  toItems? := toItems?
  toMembers? := toFields?
  toVariant? := toVariant?
  toStructure? := toStructure?

end Json

end UniformBlock
