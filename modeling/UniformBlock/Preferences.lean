import UniformBlock.Journal.Level

/-!
# Preferences

Preferences say what is reported and how. Each has a default, which a variable
of the environment may replace. Variables are consulted whenever a default is
needed, so a preference that was never set follows the environment.

A flag is set by exactly `true` or `false`; any other value leaves the default.
-/

namespace UniformBlock

abbrev Environment := List (String × String)

namespace Environment

def flag (env : Environment) (name : String) (otherwise : Bool) : Bool :=
  let value := env.lookup name
  if value = some "true" then true
  else if value = some "false" then false
  else otherwise

def level (env : Environment) (name : String) (otherwise : Level) : Level :=
  ((env.lookup name).bind Level.ofVariable?).getD otherwise

@[simp] theorem flag_nil (name : String) (otherwise : Bool) :
    flag [] name otherwise = otherwise := rfl

@[simp] theorem level_nil (name : String) (otherwise : Level) :
    level [] name otherwise = otherwise := rfl

end Environment

/-- Preferences for loading files: whether a loaded file is reported, and
whether a file without text is refused. -/
structure FilePreferences where
  reportLoading : Bool := true
  refuseEmpty : Bool := false
deriving DecidableEq, Repr, Inhabited

/-- Preferences for reading documents: whether each declaration and whether the
finished block is reported. -/
structure ScanPreferences where
  reportDeclarations : Bool := false
  reportBlock : Bool := true
deriving DecidableEq, Repr, Inhabited

/-- Preferences for the journal: whether events are printed as JSON, whether
other events than failures are printed at all, which level is kept, and whether
an event names its document. -/
structure JournalPreferences where
  structured : Bool := false
  console : Bool := false
  level : Level := .info
  nameDocument : Bool := true
deriving DecidableEq, Repr, Inhabited

structure Preferences where
  files : FilePreferences := {}
  scan : ScanPreferences := {}
  journal : JournalPreferences := {}
deriving DecidableEq, Repr, Inhabited

def FilePreferences.ofEnvironment (env : Environment) : FilePreferences where
  reportLoading := env.flag "KPARAMS_ENABLE_PERFORMANCE_LOGGING" true
  refuseEmpty := env.flag "KPARAMS_REJECT_EMPTY_FILES" false

def ScanPreferences.ofEnvironment (env : Environment) : ScanPreferences where
  reportDeclarations := env.flag "KPARAMS_SCANNER_LOG_DECLARATIONS" false
  reportBlock := env.flag "KPARAMS_SCANNER_LOG_LAYOUT_SUMMARY" true

def JournalPreferences.ofEnvironment (env : Environment) : JournalPreferences where
  structured := env.flag "KPARAMS_LOGGING_USE_STRUCTURED" false
  console := env.flag "KPARAMS_LOGGING_ENABLE_CONSOLE" false
  level := env.level "KPARAMS_LOGGING_MIN_LEVEL" .info
  nameDocument := env.flag "KPARAMS_LOGGING_INCLUDE_DOCUMENT_CONTEXT" true

def Preferences.ofEnvironment (env : Environment) : Preferences where
  files := .ofEnvironment env
  scan := .ofEnvironment env
  journal := .ofEnvironment env

def Preferences.variables : List String :=
  ["KPARAMS_ENABLE_PERFORMANCE_LOGGING", "KPARAMS_REJECT_EMPTY_FILES",
    "KPARAMS_SCANNER_LOG_DECLARATIONS", "KPARAMS_SCANNER_LOG_LAYOUT_SUMMARY",
    "KPARAMS_LOGGING_USE_STRUCTURED", "KPARAMS_LOGGING_ENABLE_CONSOLE",
    "KPARAMS_LOGGING_MIN_LEVEL", "KPARAMS_LOGGING_INCLUDE_DOCUMENT_CONTEXT"]

@[simp] theorem Preferences.ofEnvironment_nil : Preferences.ofEnvironment [] = {} := rfl

end UniformBlock
