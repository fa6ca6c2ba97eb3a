import UniformBlock.Kernel.Directory
import UniformBlock.Number.ByteSize
import UniformBlock.Session
import UniformBlock.Text.Column

/-!
# Kernel files

A kernel is loaded from a file of bounded size with a bounded number of lines.
Bytes that are not UTF-8 are replaced, because they can only stand in comments
or in parts of the kernel that are passed over. `Loaded.ofBytes` decides whether
the bytes of a file are accepted, `Loaded.ofEntry` what stands at a path, and
`Session.load` logs the outcome.
-/

namespace UniformBlock

inductive FileError where
  | notFound (path : String)
  | tooLarge (size limit : Nat)
  | empty (path : String)
  | denied (path : String)
  | notText (path : String)
  | unreadable (reason : String)
  | pathInvalid (path : String)
  | tooManyLines (lines limit : Nat)
deriving DecidableEq, Repr

namespace FileError

def message : FileError → String
  | notFound path => "File not found: " ++ path
  | tooLarge size limit =>
    "File too large: " ++ toString size ++ " bytes (max: " ++ toString limit ++ ")"
  | empty path => "File is empty: " ++ path
  | denied path => "Permission denied: " ++ path
  | notText path => "Invalid UTF-8 encoding in file: " ++ path
  | unreadable reason => "I/O error reading file: " ++ reason
  | pathInvalid path => "Invalid file path: " ++ path
  | tooManyLines lines limit =>
    "File exceeds maximum line count: " ++ toString lines ++ " (max: " ++ toString limit ++ ")"

def code : FileError → Code
  | notFound _ => .fileNotFound
  | tooLarge _ _ => .fileTooLarge
  | empty _ => .fileEmpty
  | denied _ => .permissionDenied
  | notText _ => .encodingInvalid
  | unreadable _ => .readFailure
  | pathInvalid _ => .pathInvalid
  | tooManyLines _ _ => .tooManyLines

def ofObstacle (path : String) : Obstacle → FileError
  | .denied => .denied path
  | .other reason => .unreadable ("'" ++ path ++ "': " ++ reason)
  | _ => .notFound path

end FileError

/-- A file that was loaded: its name in its directory, its text, its size in
bytes and the number of its lines. -/
structure Loaded where
  name : String
  text : String
  size : Nat
  lineCount : Nat
deriving DecidableEq, Repr

namespace Loaded

def isEmpty (l : Loaded) : Bool := Text.allBlank l.text

def source (l : Loaded) : Source := Source.ofString l.text

def sizeText (l : Loaded) : String := ByteSize.text l.size

/-- Load a file from its bytes. The size is checked first, then the number of
lines, then whether there is any text. -/
def ofBytes (p : FilePreferences) (path name : String) (bytes : List UInt8) :
    Except FileError Loaded :=
  let size := bytes.length
  if Limits.sourceBytes < size then
    .error (.tooLarge size Limits.sourceBytes)
  else
    let text := Utf8.text bytes
    let lineCount := Text.lineCount text
    if Limits.sourceLines < lineCount then
      .error (.tooManyLines lineCount Limits.sourceLines)
    else if p.refuseEmpty && Text.allBlank text then
      .error (.empty path)
    else
      .ok { name, text, size, lineCount }

def ofEntry (p : FilePreferences) (path : String) (entry : Entry) : Except FileError Loaded :=
  if path = "" then .error (.pathInvalid path)
  else
    match entry with
    | .file name bytes => ofBytes p path name bytes
    | .directory => .error (.pathInvalid path)
    | .unreadable obstacle => .error (.ofObstacle path obstacle)

end Loaded

namespace Session

def load (s : Session) (p : FilePreferences) (path : String) (entry : Entry) :
    Except FileError Loaded × Session :=
  let t := s.traceDetail "Loading kernel file" [("file", path)]
  match Loaded.ofEntry p path entry with
  | .error e => (.error e, t.logFailure e.code e.message none [("file", path)])
  | .ok loaded =>
    (.ok loaded,
      if p.reportLoading then
        t.logSuccess .fileLoaded "Kernel file loaded"
          [("duration_ms", Clock.milliseconds s.clock.elapsed), ("file", path),
            ("size", loaded.sizeText), ("lines", toString loaded.lineCount)]
      else
        t)

end Session

end UniformBlock
