import UniformBlock.Document
import UniformBlock.Session

/-!
# Reports on documents

A diagnostic is a fault that can be shown to a reader: it names the document, the
position with line and column, the code and the wording.

Reading a document in a session leaves a trace in its journal: on request one
event for every declaration as it is accepted, and then either, on request, one
event for the finished block or one failure for the fault that ended the
document. `Session.read` logs them in a scope that goes by the name of the document.
-/

namespace UniformBlock

def Position.toDoc (L : Json.Library) (p : Position) : L.Doc :=
  L.record [("offset", L.nat p.offset), ("line", L.word p.line), ("column", L.word p.column)]

structure Diagnostic where
  document : String
  position : Position
  code : Code
  message : String
deriving DecidableEq, Repr

namespace Diagnostic

def ofFault (source : Source) (document : String) (f : Fault) : Diagnostic :=
  ⟨document, Position.resolve source f.offset, f.code, f.message⟩

def text (d : Diagnostic) : String :=
  "<" ++ d.document ++ ">: line " ++ toString d.position.line.toNat ++ ": col " ++
    toString d.position.column.toNat ++ ": error: " ++ d.message

def toDoc (L : Json.Library) (d : Diagnostic) : L.Doc :=
  L.record
    [("document", L.text d.document), ("position", d.position.toDoc L),
      ("code", L.text d.code.text), ("message", L.text d.message)]

def toJson (d : Diagnostic) : Json := d.toDoc Json.standard

end Diagnostic

namespace Document.Scan

def declared (time : Instant) (u : Uniform) : Event :=
  (Event.success time .uniformDeclared "Parameter declared").withContexts
    [("name", u.name), ("type", u.type.keyword), ("offset", toString u.offset.toNat),
      ("size", toString u.size.toNat)]

def completed (time : Instant) (b : Block) (slots : UInt32) : Event :=
  (Event.success time .blockComplete "Parameter table complete").withContexts
    [("params", toString b.size), ("samplers", toString b.samplerCount.toNat),
      ("buffer_slots", toString slots.toNat)]

def failed (time : Instant) (d : Diagnostic) : Event :=
  { Event.failure time d.code d.text with position := some d.position }.withContexts
    [("line", toString d.position.line.toNat), ("column", toString d.position.column.toNat),
      ("offset", toString d.position.offset)]

end Document.Scan

namespace Session

open Document

def logDeclared (s : Session) (p : ScanPreferences) (u : Uniform) : Session :=
  if p.reportDeclarations then s.log (Scan.declared s.clock.now u) else s

/-- Scan on from a head with the block so far. A declaration that is accepted is logged,
and then its uniform is added to the block. -/
def scanFrom (s : Session) (p : ScanPreferences) (h : Head) (b : Block) :
    Except ArithmeticFault (Except Fault Block × Session) :=
  if _hend : h.toWord.atEnd = true then
    pure (.ok b, s)
  else
    match _hk : h.toWord.keyword? declarationKeyword with
    | none => s.scanFrom p h.toWord.takeWord.2 b
    | some k =>
      match _hd : Declaration.read b.size k with
      | (.error fault, _) => pure (.error fault, s)
      | (.ok d, l) => do
        let u ← b.uniformOf d
        let t := s.logDeclared p u
        let c ← b.push u
        t.scanFrom p l c
termination_by h.rest.length
decreasing_by
  · exact length_takeWord_toWord_lt (Bool.eq_false_iff.2 _hend)
  · exact length_read_lt _hk _hd

/-- Read a document that goes by the given name, and log what happens. -/
def read (s : Session) (p : ScanPreferences) (source : Source) (document : String) :
    Except ArithmeticFault (Except Diagnostic Block × Session) :=
  s.attemptWithin document fun t => do
    match ← t.scanFrom p (Head.start source) .empty with
    | (.ok b, t) =>
      if p.reportBlock then do
        let slots ← b.slots
        pure (.ok b, t.log (Scan.completed t.clock.now b slots))
      else
        pure (.ok b, t)
    | (.error fault, t) =>
      let d := Diagnostic.ofFault source document fault
      pure (.error d, t.log (Scan.failed t.clock.now d))

end Session

end UniformBlock
