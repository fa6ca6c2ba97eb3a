import UniformBlock.Journal.Code
import UniformBlock.Journal.Instant
import UniformBlock.Journal.Level
import UniformBlock.Json.Reader
import UniformBlock.Source.Position

/-!
# Events

An event is an entry of the journal: when it happened, its level, its code, a
message, and possibly a position and further context. The context is a list of
named values sorted by name, in which every name occurs once.

An event is printed either as one line of text or as one JSON object whose
members are sorted by name on every level. What is known about the code is given
for failures only, the context only where it is not empty, and the position only
where there is one. The library that knows JSON and the writer of instants are
arguments.
-/

namespace UniformBlock

/-- Named values, sorted by name. -/
abbrev Context := List (String × String)

namespace Context

/-- Set the value of a name; a former value is replaced. -/
def insert (key value : String) : Context → Context
  | [] => [(key, value)]
  | (k, v) :: rest =>
    if key = k then (key, value) :: rest
    else if key < k then (key, value) :: (k, v) :: rest
    else (k, v) :: insert key value rest

def get? (context : Context) (key : String) : Option String := context.lookup key

def insertAll (context : Context) (values : List (String × String)) : Context :=
  values.foldl (fun c kv => c.insert kv.1 kv.2) context

def toDoc (L : Json.Library) (context : Context) : L.Doc :=
  L.record (context.map fun kv => (kv.1, L.text kv.2))

end Context

structure Event where
  time : Instant
  level : Level
  code : Code
  message : String
  position : Option Position := none
  context : Context := []
deriving DecidableEq, Repr

namespace Event

def failure (time : Instant) (code : Code) (message : String) : Event :=
  { time, level := .error, code, message }

def success (time : Instant) (code : Code) (message : String) : Event :=
  { time, level := .info, code, message }

def information (time : Instant) (message : String) : Event :=
  success time .information message

def detail (time : Instant) (message : String) : Event :=
  { time, level := .debug, code := .detail, message }

def withContext (e : Event) (key value : String) : Event :=
  { e with context := e.context.insert key value }

def withContexts (e : Event) (values : List (String × String)) : Event :=
  { e with context := e.context.insertAll values }

def isError (e : Event) : Bool := e.level == .error

def isInfo (e : Event) : Bool := e.level == .info

def isFor (e : Event) (document : String) : Bool :=
  e.context.get? "document" == some document

def text (e : Event) : String :=
  "[" ++ e.level.name ++ "] " ++ e.code.text ++ " - " ++ e.message ++
    (match e.position with
      | none => ""
      | some p => " at " ++ p.text)

section Json

variable (L : Json.Library) (stamp : Instant → String)

def entryDoc (code : Code) : L.Doc :=
  L.record
    [("description", L.text code.description), ("recommended_action", L.text code.action),
      ("recoverable", L.bool code.recoverable)]

def positionDoc (p : Position) : L.Doc :=
  L.record [("column", L.word p.column), ("line", L.word p.line), ("offset", L.nat p.offset)]

def fields (e : Event) : List (String × L.Doc) :=
  [("category", L.text e.code.category), ("code", L.text e.code.text)] ++
  (if e.context = [] then [] else [("context", e.context.toDoc L)]) ++
  (if e.isError then [("error_metadata", entryDoc L e.code)] else []) ++
  [("level", L.text e.level.name), ("message", L.text e.message)] ++
  (e.position.map fun p => ("position", positionDoc L p)).toList ++
  [("severity", L.text e.code.severity.name), ("timestamp", L.text (stamp e.time))]

def toDoc (e : Event) : L.Doc := L.record (e.fields L stamp)

def write? (e : Event) : Option String := L.write? (e.toDoc L stamp)

/-- An event as JSON on one line; as text if it cannot be written. -/
def structuredText (e : Event) : String := (e.write? L stamp).getD e.text

end Json

def toJson (e : Event) : Json := e.toDoc Json.standard Instant.text

end Event

end UniformBlock
