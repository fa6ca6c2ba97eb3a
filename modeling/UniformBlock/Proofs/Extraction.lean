import UniformBlock.Kernel
import UniformBlock.Proofs.Bounds
import UniformBlock.Proofs.Report

/-!
# The extraction of a kernel

A file is loaded, its document is read and its block is reported, and each of
these steps may refuse it. Which one does is said without the steps
(`Session.Outcome`): size, lines, blank text and document are looked at in this
order, and the first obstacle decides.

Outside of any scope nothing that is logged is lost, and reading the document
stays within the budget of its own scope. The events of an extraction are
therefore all in the store: routine ones first, and then the only one that tells
the result (`Session.EndsWith`). A failure is reported by the step in which it
arises and by no other (`Session.extracted_of_file`).
-/

namespace UniformBlock

theorem FileError.code_ne_operationCompleted (error : FileError) :
    error.code ≠ .operationCompleted := by
  cases error <;> simp only [FileError.code] <;> decide

theorem Fault.code_ne_operationCompleted (fault : Fault) : fault.code ≠ .operationCompleted := by
  obtain ⟨offset, cause⟩ := fault
  cases cause <;> simp only [Fault.code, Cause.code] <;> decide

/-- The bytes of a file pass all checks that are made before its document is
read. -/
structure FilePreferences.Accepts (p : FilePreferences) (bytes : List UInt8) : Prop where
  size_le : bytes.length ≤ Limits.sourceBytes
  lines_le : Text.lineCount (Utf8.text bytes) ≤ Limits.sourceLines
  not_blank : ¬(p.refuseEmpty = true ∧ Text.allBlank (Utf8.text bytes) = true)

/-- A file with the given name and bytes, as it is loaded. -/
def Loaded.decoded (name : String) (bytes : List UInt8) : Loaded :=
  ⟨name, Utf8.text bytes, bytes.length, Text.lineCount (Utf8.text bytes)⟩

theorem EventStore.pushAll_concat (store : EventStore) (events : List Event) (e : Event) :
    (store.pushAll events).push e = store.pushAll (events ++ [e]) := by
  rw [pushAll, pushAll, List.foldl_append]
  rfl

theorem EventStore.pushAll_append (store : EventStore) (xs ys : List Event) :
    (store.pushAll xs).pushAll ys = store.pushAll (xs ++ ys) := by
  rw [pushAll, pushAll, pushAll, List.foldl_append]

namespace Session

open Document

/-! ## The events of the steps -/

/-- Events that tell neither a failure nor the end of an extraction. -/
def Routine (events : List Event) : Prop :=
  ∀ e ∈ events, e.isError = false ∧ e.code ≠ .operationCompleted

/-- The event tells the result of an extraction: a failure with the code of the
error, or that the extraction is complete. -/
def Tells (e : Event) : Except KernelError Kernel → Prop
  | .error error => e.isError = true ∧ e.code = error.code ∧ error.code ≠ .operationCompleted
  | .ok _ => e.isError = false ∧ e.code = .operationCompleted

/-- Routine events, and then one that tells a result. -/
def EndsWith (result : Except KernelError Kernel) (events : List Event) : Prop :=
  ∃ before e, events = before ++ [e] ∧ Routine before ∧ Tells e result

theorem routine_nil : Routine [] := fun e he => by cases he

theorem routine_singleton {e : Event} {code : Code} (hne : code ≠ .operationCompleted)
    (hcode : e.code = code) (herror : e.isError = false) : Routine [e] := by
  intro later hlater
  rw [List.mem_singleton.1 hlater, hcode]
  exact ⟨herror, hne⟩

theorem Routine.append {xs ys : List Event} (hx : Routine xs) (hy : Routine ys) :
    Routine (xs ++ ys) := by
  intro e he
  rcases List.mem_append.1 he with he | he
  · exact hx e he
  · exact hy e he

theorem EndsWith.append {result : Except KernelError Kernel} {xs ys : List Event}
    (hx : Routine xs) (hy : EndsWith result ys) : EndsWith result (xs ++ ys) := by
  obtain ⟨before, e, rfl, hbefore, he⟩ := hy
  exact ⟨xs ++ before, e, (List.append_assoc _ _ _).symm, hx.append hbefore, he⟩

/-- The events tell a result once: an error by one failure with its code, a kernel
by one event for the complete extraction. -/
structure ToldOnce (result : Except KernelError Kernel) (events : List Event) : Prop where
  error : ∀ error, result = .error error →
    (events.filter (·.isError)).map (·.code) = [error.code] ∧
      events.countP (·.code == .operationCompleted) = 0
  ok : ∀ kernel, result = .ok kernel →
    events.filter (·.isError) = [] ∧ events.countP (·.code == .operationCompleted) = 1

theorem Routine.filter_eq_nil {events : List Event} (h : Routine events) :
    events.filter (·.isError) = [] := by
  rw [List.filter_eq_nil_iff]
  intro e he
  rw [(h e he).1]
  exact Bool.false_ne_true

theorem Routine.countP_eq_zero {events : List Event} (h : Routine events) :
    events.countP (·.code == .operationCompleted) = 0 := by
  rw [List.countP_eq_zero]
  intro e he heq
  exact (h e he).2 (beq_iff_eq.1 heq)

theorem EndsWith.toldOnce {result : Except KernelError Kernel} {events : List Event}
    (h : EndsWith result events) : ToldOnce result events := by
  obtain ⟨before, e, rfl, hbefore, he⟩ := h
  constructor
  · rintro error rfl
    obtain ⟨herror, hcode, hne⟩ := he
    constructor
    · rw [List.filter_append, hbefore.filter_eq_nil, List.filter_cons_of_pos herror, ← hcode]
      rfl
    · rw [List.countP_append, hbefore.countP_eq_zero, List.countP_singleton, hcode,
        beq_eq_false_iff_ne.2 hne]
      rfl
  · rintro kernel rfl
    obtain ⟨herror, hcode⟩ := he
    constructor
    · rw [List.filter_append, hbefore.filter_eq_nil, List.filter_singleton, herror]
      rfl
    · rw [List.countP_append, hbefore.countP_eq_zero, List.countP_singleton, hcode,
        beq_self_eq_true]
      rfl

theorem routine_of_declared {document : Option String} {p : ScanPreferences} {us : List Uniform}
    {events : List Event} (h : Declared document p us events) : Routine events := by
  unfold Declared at h
  split at h
  · induction h with
    | nil => exact routine_nil
    | @cons u e us events hu _ ih =>
        have hfirst : Routine [e] :=
          routine_singleton (by decide) hu.code_eq (by rw [Event.isError, hu.level_eq]; rfl)
        exact hfirst.append ih
  · subst h
    exact routine_nil

theorem routine_of_concluded {document : Option String} {p : ScanPreferences} {b : Block}
    {events : List Event} (h : Concluded document p b events) : Routine events := by
  unfold Concluded at h
  split at h
  · obtain ⟨e, rfl, slots, -, hsays⟩ := h
    exact routine_singleton (by decide) hsays.code_eq (by rw [Event.isError, hsays.level_eq]; rfl)
  · subst h
    exact routine_nil

/-- A document that is accepted leaves routine events. -/
theorem routine_of_trace {document : Option String} {p : ScanPreferences}
    {diagnose : Fault → Diagnostic} {b : Block} {events : List Event}
    (h : Trace document p diagnose ⟨b, none⟩ events) : Routine events := by
  cases h with
  | complete hdeclared hfinal =>
      exact (routine_of_declared hdeclared).append (routine_of_concluded hfinal)

/-- A document that is refused leaves its diagnostic last. -/
theorem endsWith_of_trace {document : Option String} {p : ScanPreferences} {source : Source}
    {name : String} {b : Block} {fault : Fault} {events : List Event}
    (h : Trace document p (.ofFault source name) ⟨b, some fault⟩ events) :
    EndsWith (.error (.document (.ofFault source name fault))) events := by
  cases h with
  | failed hdeclared hreport =>
      refine ⟨_, _, rfl, routine_of_declared hdeclared, ?_, hreport.code_eq,
        fault.code_ne_operationCompleted⟩
      rw [Event.isError, hreport.level_eq]
      rfl

/-! ## The steps -/

def keeping (s : Session) (store : EventStore) : Session :=
  { s with channel := some (storing store) }

theorem keeping_of_channel {s : Session} {store : EventStore}
    (hs : s.channel = some (storing store)) : s.keeping store = s := by
  obtain ⟨environment, clock, preferences, channel, scope, transcript⟩ := s
  exact congrArg (Session.mk environment clock preferences · scope transcript) hs.symm

variable {s : Session} (store : EventStore)

/-- Outside of any scope every event is kept. -/
theorem log_keeping (hscope : s.scope = none) (e : Event) :
    (s.keeping store).log e = s.keeping (store.push (clamp e)) := by
  obtain ⟨environment, clock, preferences, channel, scope, transcript⟩ := s
  obtain ⟨time, level, code, message, position, context⟩ := e
  obtain rfl : scope = none := hscope
  cases level <;> rfl

/-- Details are logged if they are wanted. -/
theorem traceDetail_keeping (hscope : s.scope = none) (message : String)
    (context : List (String × String)) :
    ∃ events : List Event, (s.keeping store).traceDetail message context =
        s.keeping (store.pushAll events) ∧ events.length ≤ 1 ∧ Routine events := by
  unfold traceDetail
  split
  · exact ⟨[clamp ((Event.detail s.clock.now message).withContexts context)],
      log_keeping store hscope _, Nat.le_refl 1,
      routine_singleton (by decide : Code.detail ≠ _) rfl rfl⟩
  · exact ⟨[], rfl, Nat.zero_le 1, routine_nil⟩

/-- Loading a file answers with what stands at its path, and logs it. -/
theorem load_keeping (hscope : s.scope = none) (p : FilePreferences) (path : String)
    (entry : Entry) :
    ∃ events : List Event, (s.keeping store).load p path entry =
        (Loaded.ofEntry p path entry, s.keeping (store.pushAll events)) ∧
      events.length ≤ 2 ∧
      (∀ loaded, Loaded.ofEntry p path entry = .ok loaded → Routine events) ∧
      ∀ error, Loaded.ofEntry p path entry = .error error →
        EndsWith (.error (.file error)) events := by
  obtain ⟨details, hdetails, hone, hroutine⟩ :=
    traceDetail_keeping store hscope "Loading kernel file" [("file", path)]
  cases hentry : Loaded.ofEntry p path entry with
  | error error =>
      refine ⟨details ++ [clamp ((Event.failure s.clock.now error.code error.message).withContexts
        [("file", path)])], ?_, ?_, ?_, ?_⟩
      · rw [← EventStore.pushAll_concat, ← log_keeping _ hscope]
        simp only [load, hentry, hdetails]
        rfl
      · rw [List.length_append]
        exact Nat.add_le_add_right hone 1
      · rintro loaded ⟨⟩
      · rintro _ ⟨rfl⟩
        exact ⟨details, _, rfl, hroutine, rfl, rfl, error.code_ne_operationCompleted⟩
  | ok loaded =>
      by_cases hreport : p.reportLoading = true
      · refine ⟨details ++ [clamp ((Event.success s.clock.now .fileLoaded
          "Kernel file loaded").withContexts
            [("duration_ms", Clock.milliseconds s.clock.elapsed), ("file", path),
              ("size", loaded.sizeText), ("lines", toString loaded.lineCount)])], ?_, ?_, ?_, ?_⟩
        · rw [← EventStore.pushAll_concat, ← log_keeping _ hscope]
          simp only [load, hentry, hdetails, if_pos hreport]
          rfl
        · rw [List.length_append]
          exact Nat.add_le_add_right hone 1
        · exact fun _ _ => hroutine.append
            (routine_singleton (by decide : Code.fileLoaded ≠ _) rfl rfl)
        · rintro error ⟨⟩
      · refine ⟨details, ?_, hone.trans (Nat.le_succ 1), fun _ _ => hroutine, ?_⟩
        · simp only [load, hentry, hdetails, if_neg hreport]
        · rintro error ⟨⟩

/-- Reading a document answers with its scan, and leaves the trace of the scan. -/
theorem read_keeping {source : Source} {scan : Scan} (hscan : Document.scan source = .ok scan)
    (p : ScanPreferences) (document : String) :
    ∃ events : List Event, (s.keeping store).read p source document =
        .ok (scan.diagnosed source document, s.keeping (store.pushAll events)) ∧
      events.length ≤ Limits.uniforms + 1 ∧
      Trace (s.documentName document) p (.ofFault source document) scan events := by
  obtain ⟨hlaid, -, hsize⟩ := spec_of_scan hscan
  obtain ⟨events, hevents, hfew, htrace⟩ :=
    s.exists_events document p s.clock.now source scan hlaid hsize
  have hbudget : ({ document } : Scope).logged + events.length ≤ Limits.documentEvents := by
    simp only [Limits.uniforms] at hfew
    simp only [Limits.documentEvents]
    omega
  have hlog := logAll_of_le (s := (s.keeping store).enter document) rfl rfl events hbudget
  refine ⟨events.map (s.recorded document), ?_, by rw [List.length_map]; exact hfew, htrace⟩
  have hclock : (s.keeping store).clock.now = s.clock.now := rfl
  rw [read_eq, hscan]
  simp only [bind, Except.bind, hclock, hevents, Except.map, within, hlog]
  rfl

/-- The result for a file that was loaded, after its document is read. -/
def resultOf (path : String) (loaded : Loaded) :
    Except Diagnostic Block → Except KernelError Kernel
  | .error d => .error (.document d)
  | .ok b => .ok ⟨path, b, loaded⟩

/-- A file that was loaded ends in the answer of its document. -/
theorem extractLoaded_keeping (hscope : s.scope = none) (p : ScanPreferences) (path : String)
    (loaded : Loaded) {scan : Scan} (hscan : Document.scan loaded.source = .ok scan) :
    ∃ events : List Event, (s.keeping store).extractLoaded p path loaded =
        .ok (resultOf path loaded (scan.diagnosed loaded.source path),
          s.keeping (store.pushAll events)) ∧
      events.length ≤ Limits.uniforms + 2 ∧
      EndsWith (resultOf path loaded (scan.diagnosed loaded.source path)) events := by
  obtain ⟨events, hread, hfew, htrace⟩ := read_keeping (s := s) store hscan p path
  obtain ⟨b, fault⟩ := scan
  cases fault with
  | some fault =>
      refine ⟨events, ?_, hfew.trans (Nat.le_succ _), endsWith_of_trace htrace⟩
      simp only [extractLoaded, hread, bind, Except.bind]
      rfl
  | none =>
      obtain ⟨hlaid, -, hsize⟩ := spec_of_scan hscan
      obtain ⟨bytes, hbytes, -⟩ := (hlaid.faultless hsize).bytes
      have hcontext : Kernel.context ⟨path, b, loaded⟩ s.clock.elapsed =
          .ok [("file", path), ("params", toString b.size), ("buffer_bytes", toString bytes.toNat),
            ("duration_ms", ByteSize.places (divRound s.clock.elapsed 10000))] := by
        simp only [Kernel.context, hbytes, bind, Except.bind]
        rfl
      refine ⟨events ++ [clamp ((Event.success s.clock.now .operationCompleted
        "Kernel parameters extracted").withContexts [("file", path), ("params", toString b.size),
          ("buffer_bytes", toString bytes.toNat),
          ("duration_ms", ByteSize.places (divRound s.clock.elapsed 10000))])], ?_, ?_, ?_⟩
      · rw [← EventStore.pushAll_concat, ← log_keeping _ hscope]
        have helapsed : (s.keeping store).clock.elapsed = s.clock.elapsed := rfl
        simp only [extractLoaded, hread, bind, Except.bind, Scan.diagnosed, helapsed, hcontext]
        rfl
      · rw [List.length_append]
        exact Nat.add_le_add_right hfew 1
      · exact ⟨events, _, rfl, routine_of_trace htrace, rfl, rfl⟩

/-! ## The outcome -/

/-- Reading a source under the name of a document answers so. -/
def Answers (s : Session) (p : ScanPreferences) (source : Source) (document : String)
    (answer : Except Diagnostic Block) : Prop :=
  ∃ t, s.read p source document = .ok (answer, t)

/-- What becomes of a file with the given bytes. Its size is looked at first, then
the number of its lines, then whether it may be blank, and at last its document,
which goes by the path of the file. -/
inductive Outcome (s : Session) (p : Preferences) (path name : String) (bytes : List UInt8) :
    Except KernelError Kernel → Prop
  | tooLarge (hsize : Limits.sourceBytes < bytes.length) :
      Outcome s p path name bytes (.error (.file (.tooLarge bytes.length Limits.sourceBytes)))
  | tooManyLines (hsize : bytes.length ≤ Limits.sourceBytes)
      (hlines : Limits.sourceLines < Text.lineCount (Utf8.text bytes)) :
      Outcome s p path name bytes (.error (.file
        (.tooManyLines (Text.lineCount (Utf8.text bytes)) Limits.sourceLines)))
  | blank (hsize : bytes.length ≤ Limits.sourceBytes)
      (hlines : Text.lineCount (Utf8.text bytes) ≤ Limits.sourceLines)
      (hrefuse : p.files.refuseEmpty = true) (hblank : Text.allBlank (Utf8.text bytes) = true) :
      Outcome s p path name bytes (.error (.file (.empty path)))
  | refused {d : Diagnostic} (hfile : p.files.Accepts bytes)
      (hread : s.Answers p.scan (.ofString (Utf8.text bytes)) path (.error d)) :
      Outcome s p path name bytes (.error (.document d))
  | extracted {b : Block} (hfile : p.files.Accepts bytes)
      (hread : s.Answers p.scan (.ofString (Utf8.text bytes)) path (.ok b)) :
      Outcome s p path name bytes (.ok ⟨path, b, .decoded name bytes⟩)

/-- A file that is not loaded fails at the first check it does not pass. -/
theorem outcome_of_ofBytes {p : Preferences} {path name : String} {bytes : List UInt8}
    {error : FileError} (h : Loaded.ofBytes p.files path name bytes = .error error) :
    Outcome s p path name bytes (.error (.file error)) := by
  simp only [Loaded.ofBytes] at h
  split at h
  · rename_i hsize
    cases h
    exact .tooLarge hsize
  · rename_i hsize
    split at h
    · rename_i hlines
      cases h
      exact .tooManyLines (Nat.not_lt.1 hsize) hlines
    · rename_i hlines
      split at h
      · rename_i hblank
        cases h
        obtain ⟨hrefuse, hblank⟩ := Bool.and_eq_true_iff.1 hblank
        exact .blank (Nat.not_lt.1 hsize) (Nat.not_lt.1 hlines) hrefuse hblank
      · cases h

/-- A file that is loaded passes all checks. -/
theorem accepts_of_ofBytes {p : FilePreferences} {path name : String} {bytes : List UInt8}
    {loaded : Loaded} (h : Loaded.ofBytes p path name bytes = .ok loaded) :
    p.Accepts bytes ∧ loaded = .decoded name bytes := by
  simp only [Loaded.ofBytes] at h
  split at h
  · cases h
  · rename_i hsize
    split at h
    · cases h
    · rename_i hlines
      split at h
      · cases h
      · rename_i hblank
        cases h
        exact ⟨⟨Nat.not_lt.1 hsize, Nat.not_lt.1 hlines,
          fun hboth => hblank (Bool.and_eq_true_iff.2 hboth)⟩, rfl⟩

/-- The outcome of a file whose document is read. -/
theorem outcome_of_answers {p : Preferences} {path name : String} {bytes : List UInt8}
    {answer : Except Diagnostic Block} (hfile : p.files.Accepts bytes)
    (hread : s.Answers p.scan (.ofString (Utf8.text bytes)) path answer) :
    Outcome s p path name bytes (resultOf path (.decoded name bytes) answer) := by
  cases answer with
  | error d => exact .refused hfile hread
  | ok b => exact .extracted hfile hread

/-- The extraction of a kernel from a file with a store behind the journal: what
it answers, and what it leaves in the store. -/
structure Extracted (s : Session) (p : Preferences) (path name : String) (bytes : List UInt8)
    (store : EventStore) (result : Except KernelError Kernel) (after : EventStore)
    (events : List Event) : Prop where
  extract_eq : s.extract p path (.file name bytes) =
    .ok (result, { s with channel := some (storing after) })
  outcome : Outcome s p path name bytes result
  /-- The store keeps all new events, and gives up old ones only when it is full. -/
  store_eq : after.toList =
    store.toList.drop (events.length - (Limits.storedEvents - store.toList.length)) ++ events
  toldOnce : ToldOnce result events

/-- The events of an extraction, and its outcome. -/
theorem exists_extract_eq (hscope : s.scope = none) (hs : s.channel = some (storing store))
    (p : Preferences) {path : String} (hpath : path ≠ "") (name : String) (bytes : List UInt8) :
    ∃ result events, s.extract p path (.file name bytes) =
        .ok (result, s.keeping (store.pushAll events)) ∧
      events.length ≤ Limits.uniforms + 5 ∧ Outcome s p path name bytes result ∧
      EndsWith result events := by
  have hsame := keeping_of_channel hs
  obtain ⟨start, hstart, hone, hroutine⟩ : ∃ start : List Event,
      s.logInformation "Starting kernel parameter extraction" [("file", path)] =
        s.keeping (store.pushAll start) ∧ start.length = 1 ∧ Routine start := by
    have hlog := log_keeping store hscope ((Event.information s.clock.now
      "Starting kernel parameter extraction").withContexts [("file", path)])
    rw [hsame] at hlog
    exact ⟨[_], hlog, rfl, routine_singleton (by decide : Code.information ≠ _) rfl rfl⟩
  obtain ⟨loading, hload, htwo, hloaded, hfailed⟩ :=
    load_keeping (store.pushAll start) hscope p.files path (.file name bytes)
  have hentry : Loaded.ofEntry p.files path (.file name bytes) =
      Loaded.ofBytes p.files path name bytes := if_neg hpath
  rw [hentry, EventStore.pushAll_append] at hload
  cases hbytes : Loaded.ofBytes p.files path name bytes with
  | error error =>
      rw [hbytes] at hload
      refine ⟨.error (.file error), start ++ loading, ?_, ?_, outcome_of_ofBytes hbytes,
        .append hroutine (hfailed error (hentry.trans hbytes))⟩
      · simp only [extract, hstart, hload]
        rfl
      · rw [List.length_append]
        omega
  | ok loaded =>
      rw [hbytes] at hload
      obtain ⟨hfile, rfl⟩ := accepts_of_ofBytes hbytes
      obtain ⟨b, hscan, -⟩ := scan_spec (Loaded.decoded name bytes).source
      obtain ⟨reading, hextract, hfew, hends⟩ := extractLoaded_keeping
        (store.pushAll (start ++ loading)) hscope p.scan path (.decoded name bytes) hscan
      -- the document answers alike, whatever was logged before it is read
      obtain ⟨_, hread, -⟩ := read_keeping (s := s) store hscan p.scan path
      rw [hsame] at hread
      rw [EventStore.pushAll_append] at hextract
      refine ⟨_, start ++ loading ++ reading, ?_, ?_, outcome_of_answers hfile ⟨_, hread⟩,
        .append (hroutine.append (hloaded _ (hentry.trans hbytes))) hends⟩
      · simp only [extract, hstart, hload]
        exact hextract
      · rw [List.length_append, List.length_append]
        omega

/-- A file is extracted or refused by the first check or fault that it does not
pass, and the result is told exactly once. The empty path is the path of no
file. -/
theorem extracted_of_file {s : Session} {store : EventStore}
    (hs : s.channel = some (storing store)) (hscope : s.scope = none) (p : Preferences)
    {path : String} (hpath : path ≠ "") (name : String) (bytes : List UInt8) :
    ∃ result after events, s.Extracted p path name bytes store result after events := by
  obtain ⟨result, events, hextract, hfew, houtcome, hends⟩ :=
    exists_extract_eq store hscope hs p hpath name bytes
  refine ⟨result, store.pushAll events, events, hextract, houtcome, ?_, hends.toldOnce⟩
  exact store.toList_pushAll events (hfew.trans (by decide))

/-- The second line ends in a type without a name, and the first one is a comment
that is no text. -/
theorem extracted_nameMissing :
    ∃ (d : Diagnostic) (after : EventStore) (events : List Event),
      ({ channel := some (storing .empty) } : Session).Extracted {} "k" "k"
        ([0x2F, 0x2F, 0xE9, 0x0A] ++ Utf8.bytes "uniform int") .empty
          (.error (.document d)) after events ∧
        d.code = .nameMissing ∧ (events.filter (·.isError)).map (·.code) = [.nameMissing] := by
  obtain ⟨result, after, events, h⟩ := extracted_of_file
    (s := { channel := some (storing .empty) }) rfl rfl {} (by decide : "k" ≠ "") "k"
    ([0x2F, 0x2F, 0xE9, 0x0A] ++ Utf8.bytes "uniform int")
  have hresult : (({ channel := some (storing .empty) } : Session).extract {} "k" (.file "k"
      ([0x2F, 0x2F, 0xE9, 0x0A] ++ Utf8.bytes "uniform int"))).map Prod.fst =
        .ok (.error (.document ⟨"k", ⟨17, 2, 12⟩, .nameMissing, "missing parameter name"⟩)) := by
    decide +kernel
  rw [h.extract_eq] at hresult
  obtain rfl := Except.ok.inj hresult
  exact ⟨_, after, events, h, rfl, (h.toldOnce.error _ rfl).1⟩

end Session

end UniformBlock
