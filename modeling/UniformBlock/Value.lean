import UniformBlock.Number.Literal
import UniformBlock.Reading

/-!
# Values

Readers for the values that appear in a declaration and its relatives: truth
values, integers, numbers, angles, quoted strings and tuples. Each starts right
at the head, and a scalar that is not there is reported at the place where it
should have begun.

An angle carries its unit and is always returned in degrees. A string has no
escapes: it runs to the next quote of the kind that opened it.
-/

namespace UniformBlock

namespace Value

open Ascii

variable {α : Type}

/-- The spellings of the truth values, in the order they are tried. -/
def booleanSpellings : List (String × Bool) :=
  [("true", true), ("True", true), ("false", false), ("False", false)]

/-- Skip the first of the given keywords that is there. -/
def firstKeyword? (h : Head) : List (String × α) → Option (α × Head)
  | [] => none
  | (keyword, a) :: more =>
    match h.keyword? keyword with
    | some k => some (a, k)
    | none => firstKeyword? h more

def boolean : Reading Bool := fun h =>
  match firstKeyword? h booleanSpellings with
  | some (b, k) => (.ok b, k)
  | none => (.error ⟨h.pos, .notABoolean⟩, h)

def integer : Reading Int := fun h =>
  match IntegerLiteral.take? h.rest with
  | some literal =>
    if IntegerLiteral.inRange literal.value then (.ok literal.value, h.skip literal.length)
    else (.error ⟨h.pos, .notAnInteger⟩, h)
  | none => (.error ⟨h.pos, .notAnInteger⟩, h)

def float : Reading Single := fun h =>
  match FloatLiteral.take? h.rest with
  | some literal => (.ok literal.value, h.skip literal.length)
  | none => (.error ⟨h.pos, .notANumber⟩, h)

/-- Read the unit of an angle and convert the angle to degrees. -/
def angleUnit (x : Single) : Reading Single := fun h =>
  match h.keyword? "deg" with
  | some k => (.ok x, k)
  | none =>
    match h.keyword? "rad" with
    | some k => (.ok (x.scale .degreesPerRadian), k)
    | none => (.error ⟨h.pos, .angleWithoutUnit⟩, h)

def angle : Reading Single := do
  let x ← float
  Reading.skipBlanks
  angleUnit x

def isQuote (b : UInt8) : Bool := b == doubleQuote || b == singleQuote

/-- Read what follows the opening quote, and the closing one. -/
def stringBody (quote : UInt8) : Reading String := fun h =>
  let body := h.rest.takeWhile (· != quote)
  let k := h.skip body.length
  match k.eat? quote with
  | some l => (.ok (Utf8.text body), l)
  | none => (.error ⟨k.pos, .stringUnclosed⟩, k)

def string : Reading String := fun h =>
  match h.peek? with
  | some b => if isQuote b then stringBody b (h.skip 1) else (.error ⟨h.pos, .stringUnopened⟩, h)
  | none => (.error ⟨h.pos, .stringUnopened⟩, h)

/-- A scalar that is not there is, inside a tuple, a component of the wrong
form. -/
def asComponent (index : Nat) (kind : TupleKind) (f : Fault) : Fault :=
  match f.cause with
  | .notANumber => ⟨f.offset, .tupleComponent index kind⟩
  | .notAnInteger => ⟨f.offset, .tupleComponent index kind⟩
  | _ => f

/-- Read the separator in front of a component; the first one has none. -/
def separator (index : Nat) : Reading Unit :=
  if index = 1 then pure ()
  else do
    Reading.skipBlanks
    Reading.expect comma .tupleUnseparated

/-- Read the given number of components; the first of them has the given
index. -/
def components (kind : TupleKind) (component : Reading α) : Nat → Nat → Reading (List α)
  | _, 0 => pure []
  | index, n + 1 => do
    separator index
    Reading.skipBlanks
    let a ← component.mapFault (asComponent index kind)
    let as ← components kind component (index + 1) n
    pure (a :: as)

def tuple (kind : TupleKind) (component : Reading α) (n : Nat) : Reading (List α) := do
  Reading.expect openParen (.tupleUnopened kind)
  let as ← components kind component 1 n
  Reading.skipBlanks
  Reading.expect closeParen (.tupleUnclosed kind)
  pure as

def integers (n : Nat) : Reading (List Int) := tuple .integer integer n

def floats (n : Nat) : Reading (List Single) := tuple .float float n

def angles (n : Nat) : Reading (List Single) := tuple .angle angle n

theorem reaches_of_firstKeyword? {h k : Head} {a : α} {spellings : List (String × α)}
    (hk : firstKeyword? h spellings = some (a, k)) : h.Reaches k := by
  induction spellings with
  | nil => exact absurd hk (by simp [firstKeyword?])
  | cons s more ih =>
    obtain ⟨keyword, b⟩ := s
    unfold firstKeyword? at hk
    split at hk
    · rename_i l hl
      cases hk
      exact Head.reaches_of_keyword? hl
    · exact ih hk

theorem forward_float : float.Forward := by
  intro h
  unfold float
  split
  · exact Head.reaches_skip h _
  · exact Head.Reaches.refl h

theorem forward_stringBody (quote : UInt8) : (stringBody quote).Forward := by
  intro h
  unfold stringBody
  simp only
  split
  · rename_i l hl
    exact (Head.reaches_skip h _).trans (Head.reaches_of_eat? hl)
  · exact Head.reaches_skip h _

theorem forward_string : string.Forward := by
  intro h
  unfold string
  split
  · split
    · exact (Head.reaches_skip h 1).trans (forward_stringBody _ _)
    · exact Head.Reaches.refl h
  · exact Head.Reaches.refl h

theorem forward_separator (index : Nat) : (separator index).Forward := by
  unfold separator
  split
  · exact Reading.forward_pure ()
  · exact Reading.forward_skipBlanks.bind fun _ => Reading.forward_expect _ _

theorem forward_components (kind : TupleKind) {component : Reading α}
    (hc : component.Forward) (index n : Nat) : (components kind component index n).Forward := by
  induction n generalizing index with
  | zero => exact Reading.forward_pure []
  | succ n ih =>
    refine (forward_separator index).bind fun _ => ?_
    refine Reading.forward_skipBlanks.bind fun _ => ?_
    refine (hc.mapFault _).bind fun a => ?_
    exact (ih (index + 1)).bind fun as => Reading.forward_pure _

theorem forward_tuple (kind : TupleKind) {component : Reading α} (hc : component.Forward)
    (n : Nat) : (tuple kind component n).Forward := by
  refine (Reading.forward_expect _ _).bind fun _ => ?_
  refine (forward_components kind hc 1 n).bind fun as => ?_
  refine Reading.forward_skipBlanks.bind fun _ => ?_
  exact (Reading.forward_expect _ _).bind fun _ => Reading.forward_pure as

end Value

end UniformBlock
