import UniformBlock.Block.Json
import UniformBlock.Kernel
import UniformBlock.Preferences.File
import UniformBlock.Source.Lines
import UniformBlock.Text.Column

/-!
# The command line

The command extracts the kernel of one file and shows its uniforms, as a table
or as JSON. `CommandLine.run` is the whole program: it takes the environment, the
clock, what stands at each path and the arguments, and gives the exit code and
what was printed.
-/

namespace UniformBlock

namespace CommandLine

def program : String := "kparams"

def version : String := "0.1.0"

structure Options where
  kernel : Option String := none
  json : Bool := false
  preferences : Option String := none
  help : Bool := false
deriving DecidableEq, Repr

inductive UsageError where
  | preferencesMissing
  | optionUnknown (option : String)
  | argumentExtra (argument : String)
deriving DecidableEq, Repr

def UsageError.message : UsageError → String
  | preferencesMissing => "--config requires a file path"
  | optionUnknown option => "Unknown option '" ++ option ++ "'"
  | argumentExtra argument => "Unexpected extra argument '" ++ argument ++ "'"

def isLongOption (argument : String) : Bool := ['-', '-'].isPrefixOf argument.toList

def parse (o : Options) : List String → Except UsageError Options
  | [] => .ok o
  | "--config" :: [] => .error .preferencesMissing
  | "--config" :: path :: more => parse { o with preferences := some path } more
  | argument :: more =>
    if argument = "--help" ∨ argument = "-h" then parse { o with help := true } more
    else if argument = "--json" then parse { o with json := true } more
    else if isLongOption argument then .error (.optionUnknown argument)
    else if o.kernel.isSome then .error (.argumentExtra argument)
    else parse { o with kernel := some argument } more

/-- The paths of the files that arguments ask for. -/
def paths (arguments : List String) : List String :=
  match parse {} arguments with
  | .error _ => []
  | .ok o => o.kernel.toList ++ o.preferences.toList

def usage : List String :=
  ["Usage: " ++ program ++ " <kernel-file> [--json] [--config FILE]",
    "       " ++ program ++ " --help"]

def help (s : Session) : List String :=
  [program ++ " v" ++ version,
    "Extract uniform parameter declarations and their std140 layout",
    "",
    "USAGE:",
    "    " ++ program ++ " <kernel-file> [options]",
    "",
    "OPTIONS:",
    "    --json           Print the parameter table as JSON",
    "    --config FILE    Load runtime preferences from a TOML file",
    "    --help           Show this help message",
    "",
    "OUTPUT:",
    "    Success: one row per parameter with its slot offset and size",
    "    Failure: a single diagnostic '<file>: line L: col C: error: ...'",
    "",
    "BUILD:",
    "    " ++ Limits.origin] ++
  s.summary.map ("    " ++ ·)

def row (name type offset size unit file : String) : String :=
  "  " ++ Text.padRight 24 name ++ " " ++ Text.padRight 11 type ++ " " ++
    Text.padLeft 6 offset ++ " " ++ Text.padLeft 5 size ++ " " ++ Text.padLeft 4 unit ++ "  " ++
    file

def uniformRow (u : Uniform) : String :=
  row u.name u.type.keyword (toString u.offset.toNat) (toString u.size.toNat)
    ((u.unit.map fun n => toString n.toNat).getD "-") (u.file.getD "")

def table (k : Kernel) : Except ArithmeticFault (List String) := do
  let title := k.document ++ ": " ++ toString k.block.size ++ " parameters"
  if k.block.isEmpty then
    pure [title]
  else
    let slots ← k.block.slots
    let bytes ← k.block.bytes
    pure
      ([title, "", row "NAME" "TYPE" "OFFSET" "SIZE" "UNIT" "FILE"] ++
        k.block.uniforms.map uniformRow ++
        ["", "Buffer: " ++ toString slots.toNat ++ " slots (" ++ toString bytes.toNat ++
          " bytes), " ++ toString k.block.samplerCount.toNat ++ " samplers"])

def showKernel (s : Session) (json : Bool) (k : Kernel) : Except ArithmeticFault Session :=
  if json then
    pure (s.printOutput k.block.toJson.pretty)
  else do
    let lines ← table k
    pure (s.printLines lines)

/-- The line of a kernel file that a diagnostic points at. -/
def excerpt? (entry : Entry) (position : Position) : Option String :=
  match entry with
  | .file _ bytes =>
    some ((Lines.ofSource (Source.ofString (Utf8.text bytes))).excerpt position)
  | _ => none

/-- Show an error, which has been logged already. -/
def showError (s : Session) (json : Bool) (entry : Entry) (e : KernelError) : Session :=
  if json then
    s.printOutput (Json.record [("error", e.toJson)]).compact
  else
    match e.diagnostic?.bind fun d => excerpt? entry d.position with
    | none => s
    | some excerpt => s.printError excerpt

/-- Set the preferences, open the channel they ask for, and check that all is in
order. -/
def begin (s : Session) (p : Preferences) : Except String Unit × Session :=
  match s.setPreferences p.journal with
  | .error refusal => (.error refusal.message, s)
  | .ok s =>
    match s.openPreferred with
    | .error refusal => (.error refusal.message, s)
    | .ok s => s.validate

def success : UInt32 := 0

def failure : UInt32 := 1

/-- The exit code of an arithmetic fault. -/
def aborted : UInt32 := 101

def extract (s : Session) (p : Preferences) (json : Bool) (path : String) (entry : Entry) :
    Except ArithmeticFault (UInt32 × Session) := do
  match ← s.extract p path entry with
  | (.ok k, s) => pure (success, ← showKernel s json k)
  | (.error e, s) => pure (failure, showError s json entry e)

def preferences (env : Environment) (files : String → Entry) (o : Options) :
    Except PreferencesError Preferences :=
  match o.preferences with
  | none => .ok (.ofEnvironment env)
  | some path => Preferences.ofEntry env path (files path)

def follow (s : Session) (files : String → Entry) (o : Options) :
    Except ArithmeticFault (UInt32 × Session) :=
  if o.help then
    pure (success, s.printLines (help s))
  else
    match o.kernel with
    | none => pure (failure, s.printErrors usage)
    | some path =>
      match preferences s.environment files o with
      | .error e => pure (failure, s.report .configurationError e.message)
      | .ok p =>
        match begin s p with
        | (.error reason, s) => pure (failure, s.report .initializationFailure reason)
        | (.ok (), s) => extract s p o.json path (files path)

def run (env : Environment) (clock : Clock) (files : String → Entry) (arguments : List String) :
    UInt32 × Transcript :=
  let s : Session := { environment := env, clock := clock }
  match parse {} arguments with
  | .error e =>
    (failure, (s.printErrors (("Error: " ++ e.message) :: usage)).transcript)
  | .ok o =>
    match follow s files o with
    | .ok (code, s) => (code, s.transcript)
    | .error fault => (aborted, (s.printError fault.message).transcript)

end CommandLine

end UniformBlock
