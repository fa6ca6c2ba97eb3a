import UniformBlock.Journal.Channel

/-!
# Sessions

A `Session` is everything a run of the program keeps while it works: the
environment, the clock, the journal preferences and the channel once they are
set, the document at work, and what has been printed.

Events reach the journal in two ways. `send` hands an event to the channel as it
is. `log` is meant for events about documents: it cuts long messages, charges
the event to the budget of the document at work, drops it when the budget is
spent, and names the document in the context. The budget belongs to a scope:
`within` opens a fresh one for a piece of work and restores the former scope
afterwards.
-/

namespace UniformBlock

/-- What a run knows of time: the instant of its events, and the nanoseconds
that loading a file takes. -/
structure Clock where
  now : Instant := default
  elapsed : Nat := 0
deriving DecidableEq, Repr, Inhabited

namespace Clock

def trimZeros (digits : List Char) : List Char :=
  (digits.reverse.dropWhile (· == '0')).reverse

def milliseconds (nanos : Nat) : String :=
  let fraction := trimZeros (Instant.padded 6 (nanos % 1000000)).toList
  toString (nanos / 1000000) ++
    (if fraction = [] then "" else "." ++ String.ofList fraction)

end Clock

structure Scope where
  document : String
  logged : Nat := 0
deriving DecidableEq, Repr

namespace Scope

/-- Charge one more event to the budget; `none` once it is spent. -/
def charge? (scope : Scope) : Option Scope :=
  if scope.logged < Limits.documentEvents then
    some { scope with logged := scope.logged + 1 }
  else
    none

end Scope

structure Session where
  environment : Environment := []
  clock : Clock := {}
  preferences : Option JournalPreferences := none
  channel : Option Channel := none
  scope : Option Scope := none
  transcript : Transcript := {}

namespace Session

inductive Refusal where
  | preferencesSet
  | channelOpen
  | limits (reason : String)
deriving DecidableEq, Repr

def Refusal.message : Refusal → String
  | preferencesSet => "Runtime preferences already initialized"
  | channelOpen => "Global logger already initialized"
  | limits reason => "Configuration validation failed: " ++ reason

/-- The journal preferences in force: those that were set, or else those of the
environment. -/
def journal (s : Session) : JournalPreferences :=
  s.preferences.getD (.ofEnvironment s.environment)

def setPreferences (s : Session) (p : JournalPreferences) : Except Refusal Session :=
  match s.preferences with
  | some _ => .error .preferencesSet
  | none => .ok { s with preferences := some p }

def openChannel (s : Session) (c : Channel) : Except Refusal Session :=
  match s.channel with
  | some _ => .error .channelOpen
  | none => .ok { s with channel := some c }

def isOpen (s : Session) : Bool := s.channel.isSome

def printOutput (s : Session) (line : String) : Session :=
  { s with transcript := s.transcript.printOutput line }

def printError (s : Session) (line : String) : Session :=
  { s with transcript := s.transcript.printError line }

def printLines (s : Session) (lines : List String) : Session := lines.foldl printOutput s

def printErrors (s : Session) (lines : List String) : Session := lines.foldl printError s

/-! ## Events -/

/-- Hand an event to the channel; without a channel it is lost. -/
def send (s : Session) (e : Event) : Session :=
  match s.channel with
  | none => s
  | some c =>
    let sent := c.send e s.transcript
    { s with channel := some sent.1, transcript := sent.2 }

/-- Charge an event to the scope at work. Outside of any scope there is no
budget. -/
def charge? (scope : Option Scope) : Option (Option Scope) :=
  match scope with
  | none => some none
  | some scope => scope.charge?.map some

def tag (s : Session) (e : Event) : Event :=
  match s.scope with
  | none => e
  | some scope =>
    if s.journal.nameDocument then e.withContext "document" scope.document else e

def clamp (e : Event) : Event :=
  { e with message := Utf8.truncate Limits.messageBytes e.message }

/-- Log an event. Events that the channel does not admit are not charged to any
budget. -/
def log (s : Session) (e : Event) : Session :=
  match s.channel with
  | none => s
  | some c =>
    if c.admits e.level then
      match charge? s.scope with
      | none => s
      | some scope => { s with scope }.send (s.tag (clamp e))
    else
      s

def logAll (s : Session) (events : List Event) : Session := events.foldl log s

@[simp] theorem logAll_nil (s : Session) : s.logAll [] = s := rfl

@[simp] theorem logAll_cons (s : Session) (e : Event) (events : List Event) :
    s.logAll (e :: events) = (s.log e).logAll events := rfl

def logFailure (s : Session) (code : Code) (message : String) (position : Option Position)
    (context : List (String × String)) : Session :=
  s.log ({ Event.failure s.clock.now code message with position }.withContexts context)

def logSuccess (s : Session) (code : Code) (message : String)
    (context : List (String × String)) : Session :=
  s.log ((Event.success s.clock.now code message).withContexts context)

def logInformation (s : Session) (message : String) (context : List (String × String)) :
    Session :=
  s.log ((Event.information s.clock.now message).withContexts context)

def logDetail (s : Session) (message : String) (context : List (String × String)) : Session :=
  s.log ((Event.detail s.clock.now message).withContexts context)

def traceDetail (s : Session) (message : String) (context : List (String × String)) : Session :=
  if s.journal.level.admits .debug then s.logDetail message context else s

/-- Report a failure at once: through the channel, or else on the error stream. -/
def report (s : Session) (code : Code) (message : String) : Session :=
  if s.isOpen then s.send (Event.failure s.clock.now code message)
  else s.printError ("[ERROR] FALLBACK: [" ++ code.text ++ "] " ++ message)

/-! ## Scopes -/

def enter (s : Session) (document : String) : Session :=
  { s with scope := some { document } }

def leave (s : Session) : Session := { s with scope := none }

/-- Do a piece of work on a document, with a budget of its own. -/
def within {α : Type} (s : Session) (document : String) (work : Session → α × Session) :
    α × Session :=
  let done := work (s.enter document)
  (done.1, { done.2 with scope := s.scope })

/-- The same for work that may be broken off. -/
def attemptWithin {ε α : Type} (s : Session) (document : String)
    (work : Session → Except ε (α × Session)) : Except ε (α × Session) := do
  let done ← work (s.enter document)
  pure (s.within document fun _ => done)

@[simp] theorem within_scope {α : Type} (s : Session) (document : String)
    (work : Session → α × Session) : (s.within document work).2.scope = s.scope := rfl

/-! ## Beginning a session -/

def openPreferred (s : Session) : Except Refusal Session :=
  match Limits.check with
  | .error reason => .error (.limits reason)
  | .ok () =>
    match s.openChannel (.ofPreferences s.journal) with
    | .error refusal => .error refusal
    | .ok t =>
      .ok (t.send (.success s.clock.now .initialized "Global logging system initialized"))

def validate (s : Session) : Except String Unit × Session :=
  let t := s.traceDetail "Validating kernel pipeline configuration" []
  match Limits.check, Code.check with
  | .error reason, _ => (.error reason, t)
  | .ok (), .error reason => (.error reason, t)
  | .ok (), .ok () =>
    (.ok (), t.logSuccess .initialized "Kernel pipeline validation succeeded"
      [("codes_checked", toString Code.failures.length)])

def summary (s : Session) : List String :=
  let p := s.journal
  ["Logging Configuration:",
    "=== Limits (Compile-time, " ++ Limits.profile ++ ") ===",
    "- Log buffer size: " ++ toString Limits.storedEvents,
    "- Max events per document: " ++ toString Limits.documentEvents,
    "- Max message length: " ++ toString Limits.messageBytes,
    "=== Preferences (Runtime) ===",
    "- Min log level: " ++ p.level.name,
    "- Structured logging: " ++ toString p.structured,
    "- Console logging: " ++ toString p.console,
    "- Include document context: " ++ toString p.nameDocument]

end Session

end UniformBlock
