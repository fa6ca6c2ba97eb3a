import UniformBlock.Kernel.Directory
import UniformBlock.Preferences
import UniformBlock.Toml.Reader

/-!
# Preferences files

Preferences can be read from a TOML text with one table for each group. Whatever
the text does not set keeps the default of the environment; keys that name no
preference are ignored. A group may also be given as an array that lists the
first of its values in order, and a level as a table with the keyword for its
only key.
-/

namespace UniformBlock

namespace Toml

def toFlag? : Toml → Option Bool
  | boolean value => some value
  | _ => none

def isEmpty : Toml → Bool
  | array items => items.isEmpty
  | table fields => fields.isEmpty
  | _ => false

/-- The level of a value: its keyword as a string, or as the one key of a table
with an empty value. -/
def toLevel? : Toml → Option Level
  | string keyword => Level.ofKeyword? keyword
  | table [(keyword, v)] => if v.isEmpty then Level.ofKeyword? keyword else none
  | _ => none

/-- The value can hold a group of preferences. A date can, because it has none. -/
def isGroup : Toml → Bool
  | table _ => true
  | array _ => true
  | moment => true
  | _ => false

def member? (group : Toml) (place : Nat) (key : String) : Option Toml :=
  match group with
  | table fields => fields.lookup key
  | array items => items[place]?
  | _ => none

def decode? {α : Type} (group : Toml) (place : Nat) (key : String) (decode : Toml → Option α)
    (otherwise : α) : Option α :=
  match group.member? place key with
  | none => some otherwise
  | some v => decode v

end Toml

def FilePreferences.update? (p : FilePreferences) (group : Toml) : Option FilePreferences := do
  guard group.isGroup
  let reportLoading ←
    group.decode? 0 "enable_performance_logging" Toml.toFlag? p.reportLoading
  let refuseEmpty ← group.decode? 1 "reject_empty_files" Toml.toFlag? p.refuseEmpty
  pure { reportLoading, refuseEmpty }

def ScanPreferences.update? (p : ScanPreferences) (group : Toml) : Option ScanPreferences := do
  guard group.isGroup
  let reportDeclarations ←
    group.decode? 0 "log_declarations" Toml.toFlag? p.reportDeclarations
  let reportBlock ← group.decode? 1 "log_layout_summary" Toml.toFlag? p.reportBlock
  pure { reportDeclarations, reportBlock }

def JournalPreferences.update? (p : JournalPreferences) (group : Toml) :
    Option JournalPreferences := do
  guard group.isGroup
  let structured ← group.decode? 0 "use_structured_logging" Toml.toFlag? p.structured
  let console ← group.decode? 1 "enable_console_logging" Toml.toFlag? p.console
  let level ← group.decode? 2 "min_log_level" Toml.toLevel? p.level
  let nameDocument ← group.decode? 3 "include_document_context" Toml.toFlag? p.nameDocument
  pure { structured, console, level, nameDocument }

inductive PreferencesError where
  | unreadable (path reason : String)
  | malformed
  | unsuitable
deriving DecidableEq, Repr

def PreferencesError.message : PreferencesError → String
  | unreadable path reason =>
    "Failed to read preferences file '" ++ path ++ "': " ++ reason
  | malformed => "Invalid preferences TOML: the text is not well-formed"
  | unsuitable => "Invalid preferences TOML: a preference has an unsuitable value"

namespace Preferences

def update? (p : Preferences) (root : Toml) : Option Preferences := do
  let files ← root.decode? 0 "file_processor" p.files.update? p.files
  let scan ← root.decode? 1 "scanner" p.scan.update? p.scan
  let journal ← root.decode? 2 "logging" p.journal.update? p.journal
  pure { files, scan, journal }

def ofText (env : Environment) (text : String) : Except PreferencesError Preferences :=
  match Toml.read? text with
  | none => .error .malformed
  | some root =>
    match (ofEnvironment env).update? root with
    | none => .error .unsuitable
    | some p => .ok p

def ofEntry (env : Environment) (path : String) (entry : Entry) :
    Except PreferencesError Preferences :=
  match entry with
  | .directory => .error (.unreadable path "Is a directory (os error 21)")
  | .unreadable obstacle => .error (.unreadable path obstacle.message)
  | .file _ bytes =>
    match Utf8.text? bytes with
    | none => .error (.unreadable path "stream did not contain valid UTF-8")
    | some text => ofText env text

end Preferences

end UniformBlock
