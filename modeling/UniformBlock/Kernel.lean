import UniformBlock.Document.Report
import UniformBlock.Kernel.File

/-!
# Kernels

Extracting a kernel loads its file, reads its document under the name of the
path and lays its uniforms out. A failure has been logged once by the step in
which it arose, so that whoever shows the error need not log it again.
-/

namespace UniformBlock

/-- Why a kernel is not extracted: its file is not loaded, or its document has a
fault. -/
inductive KernelError where
  | file (error : FileError)
  | document (diagnostic : Diagnostic)
deriving DecidableEq, Repr

namespace KernelError

def message : KernelError → String
  | file error => "File processing failed: " ++ error.message
  | document diagnostic => diagnostic.text

def code : KernelError → Code
  | file error => error.code
  | document diagnostic => diagnostic.code

def diagnostic? : KernelError → Option Diagnostic
  | file _ => none
  | document diagnostic => some diagnostic

/-- An error as an object with sorted members. -/
def toDoc (L : Json.Library) (e : KernelError) : L.Doc :=
  match e with
  | file _ => L.record [("code", L.text e.code.text), ("message", L.text e.message)]
  | document d =>
    L.record
      [("code", L.text d.code.text), ("document", L.text d.document),
        ("message", L.text d.message), ("position", Event.positionDoc L d.position)]

def toJson (e : KernelError) : Json := e.toDoc Json.standard

end KernelError

structure Kernel where
  document : String
  block : Block
  file : Loaded
deriving DecidableEq, Repr

namespace Kernel

def context (k : Kernel) (elapsed : Nat) : Except ArithmeticFault (List (String × String)) := do
  let bytes ← k.block.bytes
  pure
    [("file", k.document), ("params", toString k.block.size),
      ("buffer_bytes", toString bytes.toNat),
      ("duration_ms", ByteSize.places (divRound elapsed 10000))]

end Kernel

namespace Session

def extractLoaded (s : Session) (p : ScanPreferences) (path : String) (loaded : Loaded) :
    Except ArithmeticFault (Except KernelError Kernel × Session) := do
  match ← s.read p loaded.source path with
  | (.error diagnostic, t) => pure (.error (.document diagnostic), t)
  | (.ok block, t) =>
    let kernel : Kernel := ⟨path, block, loaded⟩
    let context ← kernel.context s.clock.elapsed
    pure (.ok kernel, t.logSuccess .operationCompleted "Kernel parameters extracted" context)

def extract (s : Session) (p : Preferences) (path : String) (entry : Entry) :
    Except ArithmeticFault (Except KernelError Kernel × Session) :=
  let t := s.logInformation "Starting kernel parameter extraction" [("file", path)]
  match t.load p.files path entry with
  | (.error error, t) => pure (.error (.file error), t)
  | (.ok loaded, t) => t.extractLoaded p.scan path loaded

end Session

end UniformBlock
