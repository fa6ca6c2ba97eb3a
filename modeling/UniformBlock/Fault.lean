import UniformBlock.Journal.Code

/-!
# Faults in a source

A `Fault` says what is wrong with a source (`Cause`) and at which byte offset.
Line and column are not part of it; they are computed only for a fault that is
reported. Each cause has a wording and a code.
-/

namespace UniformBlock

/-- A kind of tuples: what such a tuple is called, and what each of its components
has to be. -/
structure TupleKind where
  name : String
  component : String
deriving DecidableEq, Repr

namespace TupleKind

def integer : TupleKind := ⟨"integer", "an integer"⟩

def float : TupleKind := ⟨"float", "a number"⟩

def angle : TupleKind := ⟨"angle", "an angle"⟩

end TupleKind

/-- What is wrong with a source. -/
inductive Cause where
  | notANumber
  | notAnInteger
  | notABoolean
  | angleWithoutUnit
  | stringUnopened
  | stringUnclosed
  | tupleUnopened (kind : TupleKind)
  /-- The component with the given index, counted from one, has the wrong form. -/
  | tupleComponent (index : Nat) (kind : TupleKind)
  | tupleUnseparated
  | tupleUnclosed (kind : TupleKind)
  | listUnopened
  | listUnseparated
  | argumentUnknown
  /-- A list ends although one of its arguments was not recognised. -/
  | listFlagged
  | argumentWithoutEquals (argument : String)
  | stringTooLong (length max : Nat)
  | typeUnknown
  | nameMissing
  /-- The source ends right after the name of a declaration. -/
  | sourceEnds
  | nameTooLong (length max : Nat)
  | tooManyUniforms (max : Nat)
  | declarationUnterminated
deriving DecidableEq, Repr

/-- The English ordinal of a number. -/
def ordinal (n : Nat) : String :=
  let ending :=
    if n % 100 = 11 ∨ n % 100 = 12 ∨ n % 100 = 13 then "th"
    else if n % 10 = 1 then "st"
    else if n % 10 = 2 then "nd"
    else if n % 10 = 3 then "rd"
    else "th"
  toString n ++ ending

namespace Cause

def message : Cause → String
  | notANumber => "expected a number"
  | notAnInteger => "expected an integer"
  | notABoolean => "expected a boolean (true, True, false or False)"
  | angleWithoutUnit => "angle must have either 'deg' or 'rad' as suffix"
  | stringUnopened => "string must begin with single or double quotation"
  | stringUnclosed => "string is missing its end quotation"
  | tupleUnopened kind => kind.name ++ " tuple must begin with parenthesis"
  | tupleComponent index kind =>
    ordinal index ++ " tuple component must be " ++ kind.component
  | tupleUnseparated => "tuple components must be separated by ','"
  | tupleUnclosed kind => kind.name ++ " tuple must end with parenthesis"
  | listUnopened => "argument list must begin with '('"
  | listUnseparated => "arguments must be separated by ','"
  | argumentUnknown => "unexpected argument"
  | listFlagged => "invalid parameter meta arguments"
  | argumentWithoutEquals argument =>
    "expected '=' between argument '" ++ argument ++ "' and its value"
  | stringTooLong length max =>
    "string argument exceeded maximum length (" ++ toString length ++ " > " ++
      toString max ++ ")"
  | typeUnknown => "invalid parameter type"
  | nameMissing => "missing parameter name"
  | sourceEnds => "file ends prematurely after this parameter"
  | nameTooLong length max =>
    "parameter name is too long (" ++ toString length ++ " > " ++ toString max ++
      " characters)"
  | tooManyUniforms max =>
    "exceeded maximum number of parameters in kernel (" ++ toString max ++ ")"
  | declarationUnterminated => "unexpected symbol after parameter declaration, expected ';'"

def code : Cause → Code
  | notANumber => .notANumber
  | notAnInteger => .notAnInteger
  | notABoolean => .notABoolean
  | angleWithoutUnit => .angleWithoutUnit
  | stringUnopened => .stringUnopened
  | stringUnclosed => .stringUnclosed
  | tupleUnopened _ => .tupleUnopened
  | tupleComponent _ _ => .tupleComponent
  | tupleUnseparated => .tupleUnseparated
  | tupleUnclosed _ => .tupleUnclosed
  | listUnopened => .listUnopened
  | listUnseparated => .listUnseparated
  | argumentUnknown => .argumentUnknown
  | listFlagged => .listFlagged
  | argumentWithoutEquals _ => .argumentWithoutEquals
  | stringTooLong _ _ => .stringTooLong
  | typeUnknown => .typeUnknown
  | nameMissing => .nameMissing
  | sourceEnds => .sourceEnds
  | nameTooLong _ _ => .nameTooLong
  | tooManyUniforms _ => .tooManyUniforms
  | declarationUnterminated => .declarationUnterminated

end Cause

/-- Something wrong at a byte offset of a source. -/
structure Fault where
  offset : Nat
  cause : Cause
deriving DecidableEq, Repr

namespace Fault

def message (f : Fault) : String := f.cause.message

def code (f : Fault) : Code := f.cause.code

end Fault

end UniformBlock
