/-!
# Codes and what is known about them

Every report carries a code. The registry says of each failure code to which
category it belongs, how severe it is, whether work can go on after it, what it
means and what to do about it. Codes that report a success, and codes nobody has
registered, have no entry; for those the defaults below hold.
-/

namespace UniformBlock

inductive Severity where
  | critical
  | high
  | medium
  | low
deriving DecidableEq, Repr

def Severity.name : Severity → String
  | critical => "Critical"
  | high => "High"
  | medium => "Medium"
  | low => "Low"

structure Code where
  text : String
deriving DecidableEq, Repr, Inhabited

namespace Code

/-! Failures of the system itself. -/

def internalError : Code := ⟨"ERR001"⟩
def initializationFailure : Code := ⟨"ERR002"⟩
def configurationError : Code := ⟨"ERR003"⟩

/-! Failures of reading a file. -/

def fileNotFound : Code := ⟨"E005"⟩
def fileTooLarge : Code := ⟨"E007"⟩
def fileEmpty : Code := ⟨"E008"⟩
def permissionDenied : Code := ⟨"E009"⟩
def encodingInvalid : Code := ⟨"E010"⟩
def readFailure : Code := ⟨"E011"⟩
def pathInvalid : Code := ⟨"E012"⟩
def tooManyLines : Code := ⟨"E013"⟩

/-! Failures of reading a literal. -/

def notANumber : Code := ⟨"E020"⟩
def notAnInteger : Code := ⟨"E021"⟩
def notABoolean : Code := ⟨"E022"⟩
def angleWithoutUnit : Code := ⟨"E023"⟩
def stringUnopened : Code := ⟨"E024"⟩
def stringUnclosed : Code := ⟨"E025"⟩

/-! Failures of the form of a declaration. -/

def tupleUnopened : Code := ⟨"E040"⟩
def tupleComponent : Code := ⟨"E041"⟩
def tupleUnseparated : Code := ⟨"E042"⟩
def tupleUnclosed : Code := ⟨"E043"⟩
def listUnopened : Code := ⟨"E044"⟩
def listUnseparated : Code := ⟨"E045"⟩
def argumentUnknown : Code := ⟨"E046"⟩
def listFlagged : Code := ⟨"E047"⟩
def argumentWithoutEquals : Code := ⟨"E048"⟩
def typeUnknown : Code := ⟨"E050"⟩
def nameMissing : Code := ⟨"E051"⟩
def sourceEnds : Code := ⟨"E052"⟩
def declarationUnterminated : Code := ⟨"E053"⟩

/-! Failures of a bound. -/

def nameTooLong : Code := ⟨"E060"⟩
def tooManyUniforms : Code := ⟨"E061"⟩
def stringTooLong : Code := ⟨"E062"⟩

/-! Successes. -/

def operationCompleted : Code := ⟨"I001"⟩
def initialized : Code := ⟨"I004"⟩
def fileLoaded : Code := ⟨"I006"⟩
def uniformDeclared : Code := ⟨"I040"⟩
def blockComplete : Code := ⟨"I041"⟩

def information : Code := ⟨"I000"⟩

def detail : Code := ⟨"D000"⟩

structure Entry where
  code : Code
  category : String
  severity : Severity
  recoverable : Bool
  description : String
  action : String

def registry : List Entry :=
  [
    ⟨internalError, "System", .critical, false,
      "Critical internal error", "File a bug report with the failing input"⟩,
    ⟨initializationFailure, "System", .critical, false,
      "Initialization failure", "Check logging and runtime configuration"⟩,
    ⟨configurationError, "System", .high, false,
      "Runtime configuration could not be loaded", "Check the configuration file path and TOML syntax"⟩,
    ⟨fileNotFound, "FileProcessing", .medium, false,
      "Kernel file not found", "Verify the file path exists"⟩,
    ⟨fileTooLarge, "FileProcessing", .high, false,
      "Kernel file exceeds maximum size", "Reduce the kernel source size"⟩,
    ⟨fileEmpty, "FileProcessing", .low, true,
      "Kernel file is empty", "Provide a kernel with content"⟩,
    ⟨permissionDenied, "FileProcessing", .medium, false,
      "Permission denied reading kernel file", "Check file permissions"⟩,
    ⟨encodingInvalid, "FileProcessing", .medium, false,
      "Kernel file is not valid UTF-8", "Save the kernel with UTF-8 encoding"⟩,
    ⟨readFailure, "FileProcessing", .medium, false,
      "I/O error while reading kernel file", "Check disk and file system state"⟩,
    ⟨pathInvalid, "FileProcessing", .medium, false,
      "Invalid kernel file path", "Provide a path to a regular file"⟩,
    ⟨tooManyLines, "FileProcessing", .high, false,
      "Kernel file has too many lines", "Split or shorten the kernel source"⟩,
    ⟨notANumber, "Lexical", .medium, false,
      "Expected a numeric literal", "Write the value as a decimal number"⟩,
    ⟨notAnInteger, "Lexical", .medium, false,
      "Expected an integer literal", "Write the value as a decimal integer"⟩,
    ⟨notABoolean, "Lexical", .medium, false,
      "Expected a boolean literal", "Use true, True, false or False"⟩,
    ⟨angleWithoutUnit, "Lexical", .medium, false,
      "Angle is missing its unit", "Suffix the angle with deg or rad"⟩,
    ⟨stringUnopened, "Lexical", .medium, false,
      "String must begin with a quote", "Enclose the value in ' or \" quotes"⟩,
    ⟨stringUnclosed, "Lexical", .medium, false,
      "String is not terminated", "Close the string with its opening quote"⟩,
    ⟨tupleUnopened, "Syntax", .medium, false,
      "Tuple must begin with a parenthesis", "Enclose tuple components in ( )"⟩,
    ⟨tupleComponent, "Syntax", .medium, false,
      "Tuple component has the wrong form", "Check each tuple component's type"⟩,
    ⟨tupleUnseparated, "Syntax", .medium, false,
      "Tuple components must be separated by ','", "Insert ',' between components"⟩,
    ⟨tupleUnclosed, "Syntax", .medium, false,
      "Tuple must end with a parenthesis", "Close the tuple with ')'"⟩,
    ⟨listUnopened, "Syntax", .medium, false,
      "Argument list must begin with a parenthesis", "Open the metadata list with '('"⟩,
    ⟨listUnseparated, "Syntax", .medium, false,
      "Arguments must be separated by ','", "Insert ',' between arguments"⟩,
    ⟨argumentUnknown, "Syntax", .medium, false,
      "Unexpected argument in list", "Remove the argument or fix its name"⟩,
    ⟨listFlagged, "Syntax", .medium, false,
      "Invalid parameter metadata", "Fix the earlier argument error"⟩,
    ⟨argumentWithoutEquals, "Syntax", .medium, false,
      "Argument is missing '='", "Write arguments as name=value"⟩,
    ⟨typeUnknown, "Syntax", .medium, false,
      "Unknown parameter type", "Use one of the supported uniform types"⟩,
    ⟨nameMissing, "Syntax", .medium, false,
      "Parameter name is missing", "Name the parameter after its type"⟩,
    ⟨sourceEnds, "Syntax", .medium, false,
      "Source ends inside a parameter declaration", "Complete the declaration"⟩,
    ⟨declarationUnterminated, "Syntax", .medium, false,
      "Parameter declaration is missing ';'", "Terminate the declaration with ';'"⟩,
    ⟨nameTooLong, "Bounds", .medium, false,
      "Parameter name is too long", "Shorten the parameter name"⟩,
    ⟨tooManyUniforms, "Bounds", .high, false,
      "Too many parameters in kernel", "Reduce the number of uniform parameters"⟩,
    ⟨stringTooLong, "Bounds", .medium, false,
      "String argument is too long", "Shorten the string value"⟩
  ]

def lookup? (code : Code) : Option Entry := registry.find? (·.code == code)

def category (code : Code) : String := (code.lookup?.map (·.category)).getD "Unknown"

def severity (code : Code) : Severity := (code.lookup?.map (·.severity)).getD .medium

def recoverable (code : Code) : Bool := (code.lookup?.map (·.recoverable)).getD true

def description (code : Code) : String :=
  (code.lookup?.map (·.description)).getD "Unknown error"

def action (code : Code) : String :=
  (code.lookup?.map (·.action)).getD "No specific action available"

/-- The codes that a failure to load or to read a document can have. -/
def failures : List Code :=
  [fileNotFound, fileTooLarge, fileEmpty, permissionDenied, encodingInvalid, readFailure,
    pathInvalid, tooManyLines,
    notANumber, notAnInteger, notABoolean, angleWithoutUnit, stringUnopened, stringUnclosed,
    tupleUnopened, tupleComponent, tupleUnseparated, tupleUnclosed, listUnopened,
    listUnseparated, argumentUnknown, listFlagged, argumentWithoutEquals, typeUnknown,
    nameMissing, sourceEnds, declarationUnterminated,
    nameTooLong, tooManyUniforms, stringTooLong]

/-- Every failure code has an entry; the message names the first one without. -/
def check : Except String Unit :=
  match failures.find? (·.lookup?.isNone) with
  | some code => .error ("Error code " ++ code.text ++ " not found in metadata registry")
  | none => .ok ()

end Code

end UniformBlock
