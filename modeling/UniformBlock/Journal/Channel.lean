import UniformBlock.Journal.Store
import UniformBlock.Preferences

/-!
# Channels

Events reach their destination through a channel. A channel has a level, and may
have a gate with a level of its own behind it; an event passes if both admit it.
The destination is an event store or the terminal, which has a way to write an
event, as text or as JSON. There an event is printed on one line if the terminal's
own level admits it: failures on the error stream, everything else on the output
stream.
-/

namespace UniformBlock

/-- What has been printed. -/
structure Transcript where
  output : String := ""
  errors : String := ""
deriving DecidableEq, Repr, Inhabited

namespace Transcript

def printOutput (t : Transcript) (line : String) : Transcript :=
  { t with output := t.output ++ line ++ "\n" }

def printError (t : Transcript) (line : String) : Transcript :=
  { t with errors := t.errors ++ line ++ "\n" }

end Transcript

inductive Destination where
  | store (events : EventStore)
  | terminal (written : Event → String) (level : Level)

structure Channel where
  level : Level
  gate : Option Level
  destination : Destination

namespace Channel

def toStore (level : Level) (gate : Option Level := none) : Channel :=
  ⟨level, gate, .store .empty⟩

/-- The channel to the terminal that preferences ask for. Failures are always
printed; the console preference extends this to every event that is kept. -/
def ofPreferences (p : JournalPreferences) : Channel where
  level := p.level
  gate := some p.level
  destination :=
    .terminal (if p.structured then Event.structuredText Json.standard Instant.text else Event.text)
      (if p.console then p.level else .error)

/-- Set the channel's own level; a gate behind it keeps its level. -/
def setLevel (c : Channel) (level : Level) : Channel := { c with level }

def admits (c : Channel) (level : Level) : Bool := c.level.admits level

/-- Events of the given level reach the destination. -/
def passes (c : Channel) (level : Level) : Bool :=
  c.admits level && (match c.gate with
    | none => true
    | some gate => gate.admits level)

def printEvent (written : Event → String) (e : Event) (t : Transcript) : Transcript :=
  if e.isError then t.printError (written e) else t.printOutput (written e)

def deliver (e : Event) (t : Transcript) : Destination → Destination × Transcript
  | .store events => (.store (events.push e), t)
  | .terminal written level =>
    (.terminal written level, if level.admits e.level then printEvent written e t else t)

def send (c : Channel) (e : Event) (t : Transcript) : Channel × Transcript :=
  if c.passes e.level then
    let delivered := deliver e t c.destination
    ({ c with destination := delivered.1 }, delivered.2)
  else
    (c, t)

def store? (c : Channel) : Option EventStore :=
  match c.destination with
  | .store events => some events
  | .terminal _ _ => none

/-- Empty the store behind a channel. -/
def clear (c : Channel) : Channel :=
  match c.destination with
  | .store _ => { c with destination := .store .empty }
  | .terminal _ _ => c

end Channel

end UniformBlock
