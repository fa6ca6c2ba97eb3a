import Std.Time.DateTime.Timestamp
import UniformBlock.CommandLine

/-!
# The program

The outermost layer: it looks up the variables, the clock and the files that the
arguments ask for, runs the command, and prints what it says.
-/

namespace UniformBlock

/-- The system's number for an attempt to read a directory. -/
def directoryNumber : UInt32 := 21

def readEntry (path : String) : IO Entry := do
  try
    let bytes ← IO.FS.readBinFile path
    pure (.file path bytes.toList)
  catch
    | .noFileOrDirectory _ _ _ => pure (.unreadable .absent)
    | .permissionDenied _ _ _ => pure (.unreadable .denied)
    | .inappropriateType _ number _ =>
      pure (if number = directoryNumber then .directory else .unreadable .notADirectory)
    | failure => pure (.unreadable (.other (toString failure)))

def readEnvironment : IO Environment :=
  Preferences.variables.filterMapM fun name => do
    let value ← IO.getEnv name
    pure (value.map fun v => (name, v))

def readInstant : IO Instant := do
  let timestamp ← Std.Time.Timestamp.now
  pure ⟨timestamp.val.second.val, timestamp.val.nano.val.toNat⟩

def runCommand (arguments : List String) : IO UInt32 := do
  let environment ← readEnvironment
  let now ← readInstant
  let start ← IO.monoNanosNow
  let entries ← (CommandLine.paths arguments).mapM fun path => do
    pure (path, ← readEntry path)
  let stop ← IO.monoNanosNow
  let files (path : String) : Entry := (entries.lookup path).getD (.unreadable .absent)
  let (code, transcript) := CommandLine.run environment ⟨now, stop - start⟩ files arguments
  (← IO.getStdout).putStr transcript.output
  (← IO.getStderr).putStr transcript.errors
  pure code

end UniformBlock

def main (arguments : List String) : IO UInt32 := UniformBlock.runCommand arguments
