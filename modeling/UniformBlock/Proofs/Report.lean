import Mathlib.Data.List.Forall2
import UniformBlock.Proofs.Journal
import UniformBlock.Proofs.Placement
import UniformBlock.Proofs.Staging

/-!
# The trace of a document

Reading a document in a session answers with what a scan of its source answers,
and leaves events behind: on request one for each declaration that was accepted,
in their order, and one for the end of the document (`Trace`). A block has far
fewer uniforms than a document may log events, and a scope begins with a fresh
budget, so none of the events is lost, not even the last one, which reports the
fault of a document that is refused. The scope in which the document was read is
left as it was found, whatever it had already logged.
-/

namespace UniformBlock

namespace Event

/-- What an event says: everything but its time. Its context has the given
values and, if there is one to name, the document. -/
structure Says (e : Event) (level : Level) (code : Code) (message : String)
    (position : Option Position) (document : Option String)
    (values : List (String × String)) : Prop where
  level_eq : e.level = level
  code_eq : e.code = code
  message_eq : e.message = message
  position_eq : e.position = position
  context_eq : ∀ key, e.context.get? key =
    (document.toList.map (fun name => ("document", name)) ++ values).lookup key

end Event

theorem Session.says_recorded (s : Session) (document : String) (e : Event)
    (hempty : e.context = []) {values : List (String × String)}
    (hnodup : (values.map Prod.fst).Nodup) :
    (s.recorded document (e.withContexts values)).Says e.level e.code
      (Utf8.truncate Limits.messageBytes e.message) e.position (s.documentName document)
      values := by
  have hvalues (key : String) :
      (Session.clamp (e.withContexts values)).context.get? key = values.lookup key := by
    have hall := Context.get?_insertAll e.context hnodup key
    rw [hempty] at hall
    simpa [Session.clamp, Event.withContexts, hempty, Context.get?] using hall
  unfold recorded
  cases s.documentName document with
  | none => exact ⟨rfl, rfl, rfl, rfl, hvalues⟩
  | some name =>
      refine ⟨rfl, rfl, rfl, rfl, fun key => ?_⟩
      rw [Option.toList_some, List.map_singleton, List.singleton_append,
        Context.lookup_cons_eq_ite, ← hvalues key]
      exact Context.get?_insert _ _ _ _

namespace Document

variable (document : Option String)

def Announces (u : Uniform) (e : Event) : Prop :=
  e.Says .info .uniformDeclared "Parameter declared" none document
    [("name", u.name), ("type", u.type.keyword), ("offset", toString u.offset.toNat),
      ("size", toString u.size.toNat)]

def Concludes (b : Block) (e : Event) : Prop :=
  ∃ slots, b.slots = .ok slots ∧
    e.Says .info .blockComplete "Parameter table complete" none document
      [("params", toString b.size), ("samplers", toString b.samplerCount.toNat),
        ("buffer_slots", toString slots.toNat)]

/-- The event reports a diagnostic: its code, its position, its line, column and
offset, and as much of its text as a message holds. -/
def Reports (d : Diagnostic) (e : Event) : Prop :=
  e.Says .error d.code (Utf8.truncate Limits.messageBytes d.text) (some d.position) document
    [("line", toString d.position.line.toNat), ("column", toString d.position.column.toNat),
      ("offset", toString d.position.offset)]

/-- One event for each uniform in their order, or none if they are not wanted. -/
def Declared (p : ScanPreferences) (us : List Uniform) (events : List Event) : Prop :=
  if p.reportDeclarations then List.Forall₂ (Announces document) us events else events = []

/-- One event for the block, or none if it is not wanted. -/
def Concluded (p : ScanPreferences) (b : Block) (events : List Event) : Prop :=
  if p.reportBlock then ∃ e, events = [e] ∧ Concludes document b e else events = []

/-- The events for a scan whose faults are diagnosed as given: those of the
accepted declarations, then what the end of the document calls for. -/
inductive Trace (p : ScanPreferences) (diagnose : Fault → Diagnostic) :
    Scan → List Event → Prop
  | complete {b : Block} {declared final : List Event}
      (hdeclared : Declared document p b.uniforms declared)
      (hfinal : Concluded document p b final) :
      Trace p diagnose ⟨b, none⟩ (declared ++ final)
  | failed {b : Block} {fault : Fault} {declared : List Event} {e : Event}
      (hdeclared : Declared document p b.uniforms declared)
      (hreport : Reports document (diagnose fault) e) :
      Trace p diagnose ⟨b, some fault⟩ (declared ++ [e])

end Document

namespace Session

open Document

variable (s : Session) (document : String) (p : ScanPreferences) (time : Instant)

theorem announces_recorded (u : Uniform) :
    Announces (s.documentName document) u (s.recorded document (Scan.declared time u)) :=
  s.says_recorded document (Event.success time .uniformDeclared "Parameter declared") rfl
    (by simp)

theorem concludes_recorded {b : Block} {slots : UInt32} (hslots : b.slots = .ok slots) :
    Concludes (s.documentName document) b (s.recorded document (Scan.completed time b slots)) :=
  ⟨slots, hslots, s.says_recorded document
    (Event.success time .blockComplete "Parameter table complete") rfl (by simp)⟩

theorem reports_recorded (d : Diagnostic) :
    Reports (s.documentName document) d (s.recorded document (Scan.failed time d)) :=
  s.says_recorded document { Event.failure time d.code d.text with position := some d.position }
    rfl (by simp)

theorem declared_recorded (scan : Scan) :
    Declared (s.documentName document) p scan.block.uniforms
      ((Scan.declarationEvents p time scan.block).map (s.recorded document)) := by
  unfold Declared Scan.declarationEvents
  split
  · rw [List.map_map, List.forall₂_map_right_iff, List.forall₂_same]
    exact fun u _ => s.announces_recorded document time u
  · rfl

/-- The events of a scan, as they are recorded, are its trace, and there are
about as many as uniforms. -/
theorem exists_events (source : Source) (scan : Scan) (hlaid : scan.block.WellLaid)
    (hsize : scan.block.size ≤ Limits.uniforms) :
    ∃ events, scan.events p time source document = .ok events ∧
      events.length ≤ Limits.uniforms + 1 ∧
      Trace (s.documentName document) p (.ofFault source document) scan
        (events.map (s.recorded document)) := by
  have hdeclared := s.declared_recorded document p time scan
  have hfew : (Scan.declarationEvents p time scan.block).length ≤ Limits.uniforms := by
    unfold Scan.declarationEvents
    split
    · rw [List.length_map]
      exact hsize
    · exact Nat.zero_le _
  obtain ⟨slots, hslots, -⟩ := hlaid.slots_eq hsize
  obtain ⟨b, fault⟩ := scan
  cases fault with
  | some fault =>
      refine ⟨_, rfl, ?_, ?_⟩
      · rw [List.length_append]
        exact Nat.add_le_add_right hfew 1
      · rw [List.map_append]
        exact .failed hdeclared (s.reports_recorded document time _)
  | none =>
      by_cases hblock : p.reportBlock = true
      · refine ⟨Scan.declarationEvents p time b ++ [Scan.completed time b slots],
          ?_, ?_, ?_⟩
        · simp only [Scan.events, Scan.finalEvents, if_pos hblock, hslots, bind, Except.bind]
          rfl
        · rw [List.length_append]
          exact Nat.add_le_add_right hfew 1
        · rw [List.map_append]
          refine .complete hdeclared ?_
          rw [Concluded, if_pos hblock]
          exact ⟨_, rfl, s.concludes_recorded document time hslots⟩
      · refine ⟨Scan.declarationEvents p time b ++ [], ?_, ?_, ?_⟩
        · simp only [Scan.events, Scan.finalEvents, if_neg hblock, bind, Except.bind]
          rfl
        · rw [List.append_nil]
          exact hfew.trans (Nat.le_succ _)
        · rw [List.map_append]
          refine .complete hdeclared ?_
          rw [Concluded, if_neg hblock]
          rfl

/-- Reading a document with a store behind the journal: what it answers, and
what it leaves in the store. -/
structure Leaves (source : Source) (store : EventStore) (scan : Scan)
    (answer : Except Diagnostic Block) (after : EventStore) (events : List Event) : Prop where
  scan_eq : Document.scan source = .ok scan
  declarations_eq :
    scan.block.uniforms.map Uniform.declaration = (Document.read source).declarations
  /-- Only the store changes: the scope at work is the one from before. -/
  read_eq : s.read p source document =
    .ok (answer, { s with channel := some (storing after) })
  ok_iff : ∀ b, answer = .ok b ↔ scan.result = .ok b
  error_iff : ∀ d, answer = .error d ↔
    ∃ fault, scan.result = .error fault ∧ d = .ofFault source document fault
  trace : Trace (s.documentName document) p (.ofFault source document) scan events
  /-- The store keeps all new events, and gives up old ones only when it is full. -/
  store_eq : after.toList =
    store.toList.drop (events.length - (Limits.storedEvents - store.toList.length)) ++ events

/-- Reading a document answers with the scan of its source and leaves exactly the
trace of the scan in the store, whatever has been logged before. -/
theorem leaves_of_read {s : Session} {store : EventStore}
    (hs : s.channel = some (storing store)) (p : ScanPreferences) (source : Source)
    (document : String) :
    ∃ scan answer after events, s.Leaves document p source store scan answer after events := by
  obtain ⟨b, hscan, hlaid, hmap, hsize⟩ := Document.scan_spec source
  obtain ⟨events, hevents, hfew, htrace⟩ :=
    s.exists_events document p s.clock.now source ⟨b, (Document.read source).fault⟩
      hlaid hsize
  have hbudget : ({ document } : Scope).logged + events.length ≤ Limits.documentEvents := by
    simp only [Limits.uniforms] at hfew
    simp only [Limits.documentEvents]
    omega
  have hlog := logAll_of_le (s := s.enter document) hs rfl events hbudget
  refine ⟨⟨b, (Document.read source).fault⟩,
    Scan.diagnosed source document ⟨b, (Document.read source).fault⟩,
    store.pushAll (events.map (s.recorded document)), events.map (s.recorded document),
    hscan, hmap, ?_, ?_, ?_, htrace, ?_⟩
  · rw [read_eq, hscan]
    simp only [bind, Except.bind, hevents, Except.map, within, hlog]
    rfl
  · intro b
    cases (Document.read source).fault <;> simp [Scan.diagnosed, Scan.result]
  · intro d
    cases (Document.read source).fault <;> simp [Scan.diagnosed, Scan.result, eq_comm]
  · refine EventStore.toList_pushAll store _ ?_
    rw [List.length_map]
    exact (Nat.le_add_left _ _).trans (hbudget.trans (by decide))

/-- A document is refused behind its first declaration, in a session whose own
document has spent its budget. -/
theorem leaves_spent :
    ∃ scan answer after events,
      ({ channel := some (storing .empty), scope := some ⟨"outer", 1000⟩ } : Session).Leaves
        "inner" { reportDeclarations := true } (.ofString "uniform int n; uniform float ;")
        .empty scan answer after events ∧
      scan.result = .error ⟨29, .nameMissing⟩ := by
  obtain ⟨scan, answer, after, events, h⟩ := leaves_of_read
    (s := { channel := some (storing .empty), scope := some ⟨"outer", 1000⟩ }) rfl
    { reportDeclarations := true } (.ofString "uniform int n; uniform float ;") "inner"
  have hscan : Document.scan (.ofString "uniform int n; uniform float ;") =
      .ok ⟨⟨[⟨"n", .int, Hint.all .zero, Hint.all .one, 0, 1, none, none⟩], 0⟩,
        some ⟨29, .nameMissing⟩⟩ := by
    decide +kernel
  refine ⟨scan, answer, after, events, h, ?_⟩
  rw [← Except.ok.inj (hscan.symm.trans h.scan_eq)]
  rfl

end Session

end UniformBlock
