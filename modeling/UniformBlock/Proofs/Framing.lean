import Mathlib.Data.String.Basic
import UniformBlock.Proofs.Library
import UniformBlock.Proofs.Lines
import UniformBlock.Proofs.Retention
import UniformBlock.Proofs.Timestamp

/-!
# Events on lines of their own

An event is printed as one JSON text. Whatever its message, its context and its
names hold, a lawful library for JSON writes a text without control characters
(`Event.writes_toDoc`), and so without line feeds. The text tells the event:
`JournalLine` is what a reader of the journal learns from one line, and it is what
stands in the event (`Event.read?_of_write?`).

A channel to the terminal is followed step by step: one step prints at most the event
that it logs (`Channel.perform_terminal`), and a run prints the events that were
admitted, in order (`Channel.run_terminal`). The lines of either stream are therefore
the texts of these events, one for each, and no event can make up another one.
-/

namespace UniformBlock

namespace Json

/-- Characters that are printable are encoded by bytes that are. -/
theorem Printable.le_of_mem_encode {cs : List Char} (h : Printable cs) {b : UInt8}
    (hb : b ∈ Utf8.encode cs) : 0x20 ≤ b.toNat := by
  have hcontrol : ∀ n < 0x20, ¬ 0x20 ≤ (Char.ofNat n).toNat := by decide
  by_contra hlt
  exact hcontrol b.toNat (by omega) (h _ (Utf8.ofNat_mem_of_mem_encode (by omega) hb))

theorem Printable.lineFeed_notMem {cs : List Char} (h : Printable cs) : '\n' ∉ cs :=
  fun hmem => absurd (h '\n' hmem) (by decide)

end Json

open Json.Library

variable (L : Json.Library) (stamp : Instant → String)

/-! ## What a line tells -/

def Level.ofName? (name : String) : Option Level := all.find? (·.name == name)

theorem Level.ofName?_name (level : Level) : ofName? level.name = some level := by
  cases level <;> decide

def Context.ofDoc? (d : L.Doc) : Option Context :=
  (L.toMembers? d).bind fun fields =>
    fields.mapM fun f => (L.toText? f.2).map fun value => (f.1, value)

def Position.ofDoc? (d : L.Doc) : Option Position := do
  let fields ← L.toMembers? d
  let offset ← (fields.lookup "offset").bind L.toNat?
  let line ← (fields.lookup "line").bind L.toWord?
  let column ← (fields.lookup "column").bind L.toWord?
  pure ⟨offset, line, column⟩

/-- What a line of the journal tells about an event. -/
structure JournalLine where
  time : String
  level : Level
  code : Code
  message : String
  context : Option Context
  position : Option Position
  /-- The line says what is known about the code. -/
  hasEntry : Bool
deriving DecidableEq, Repr

namespace JournalLine

/-- What an object tells. A member that occurs twice is refused. -/
def ofDoc? (d : L.Doc) : Option JournalLine := do
  let fields ← (L.toMembers? d).filter fun fields => (fields.map (·.1)).Nodup
  let time ← (fields.lookup "timestamp").bind L.toText?
  let level ← ((fields.lookup "level").bind L.toText?).bind Level.ofName?
  let code ← (fields.lookup "code").bind L.toText?
  let message ← (fields.lookup "message").bind L.toText?
  let context ← (fields.lookup "context").mapM (Context.ofDoc? L)
  let position ← (fields.lookup "position").mapM (Position.ofDoc? L)
  pure ⟨time, level, ⟨code⟩, message, context, position, (fields.lookup "error_metadata").isSome⟩

def read? (s : String) : Option JournalLine := (L.read? s).bind (ofDoc? L)

end JournalLine

/-! ## Events -/

/-- The names are sorted, and every name occurs once. -/
def Context.IsSorted (context : Context) : Prop := (context.map (·.1)).Pairwise (· < ·)

theorem Context.fst_mem_insert {context : Context} {key value : String} {kv : String × String}
    (h : kv ∈ context.insert key value) : kv.1 = key ∨ kv ∈ context := by
  fun_induction Context.insert key value context with
  | case1 => exact .inl (congrArg Prod.fst (List.mem_singleton.1 h))
  | case2 v rest =>
      rcases List.mem_cons.1 h with rfl | h
      · exact .inl rfl
      · exact .inr (List.mem_cons_of_mem _ h)
  | case3 k v rest =>
      rcases List.mem_cons.1 h with rfl | h
      · exact .inl rfl
      · exact .inr h
  | case4 k v rest hne hlt ih =>
      rcases List.mem_cons.1 h with rfl | h
      · exact .inr List.mem_cons_self
      · exact (ih h).imp_right (List.mem_cons_of_mem _)

theorem Context.IsSorted.insert {context : Context} (h : context.IsSorted) (key value : String) :
    (context.insert key value).IsSorted := by
  unfold IsSorted at h ⊢
  fun_induction Context.insert key value context with
  | case1 => simp
  | case2 v rest => simpa using h
  | case3 k v rest hne hlt =>
      rw [List.map_cons, List.pairwise_cons]
      refine ⟨fun name hname => ?_, h⟩
      rw [List.map_cons, List.pairwise_cons] at h
      rcases List.mem_cons.1 hname with rfl | hname
      · exact hlt
      · exact lt_trans hlt (h.1 name hname)
  | case4 k v rest hne hlt ih =>
      rw [List.map_cons, List.pairwise_cons] at h ⊢
      refine ⟨fun name hname => ?_, ih h.2⟩
      obtain ⟨kv, hkv, rfl⟩ := List.mem_map.1 hname
      rcases Context.fst_mem_insert hkv with hkey | hkv
      · rw [hkey]
        exact lt_of_le_of_ne (not_lt.1 hlt) (Ne.symm hne)
      · exact h.1 kv.1 (List.mem_map_of_mem hkv)

namespace Event

/-- The context is sorted, and an offset is a 64-bit word. -/
structure IsProper (e : Event) : Prop where
  sorted : e.context.IsSorted
  offset_lt : ∀ p ∈ e.position, p.offset < UInt64.size

theorem IsProper.withContexts {e : Event} (he : e.IsProper) (values : List (String × String)) :
    (e.withContexts values).IsProper := by
  refine ⟨?_, he.offset_lt⟩
  have hsorted := he.sorted
  unfold Event.withContexts Context.insertAll
  generalize e.context = context at hsorted ⊢
  induction values generalizing context with
  | nil => exact hsorted
  | cons kv values ih => exact ih _ (hsorted.insert kv.1 kv.2)

variable (e : Event)

/-- What is to be told about an event. An empty context is not told. -/
def line : JournalLine :=
  ⟨stamp e.time, e.level, e.code, e.message, if e.context = [] then none else some e.context,
    e.position, e.isError⟩

variable {L stamp}

theorem nodup_fields : ((e.fields L stamp).map (·.1)).Nodup := by
  unfold fields
  by_cases hcontext : e.context = [] <;> cases e.isError <;> cases e.position <;> simp [hcontext]

theorem lookup_fields {name : String} {value : L.Doc} (h : (name, value) ∈ e.fields L stamp) :
    (e.fields L stamp).lookup name = some value :=
  lookup_eq_some_of_mem e.nodup_fields h

theorem lookup_fields_context :
    (e.fields L stamp).lookup "context" = (e.line stamp).context.map (Context.toDoc L) := by
  by_cases hcontext : e.context = []
  · rw [line, if_pos hcontext, Option.map_none]
    refine lookup_eq_none_of_notMem ?_
    cases he : e.isError <;> cases hp : e.position <;> simp [fields, hcontext, he, hp]
  · rw [line, if_neg hcontext, Option.map_some]
    exact e.lookup_fields (by simp [fields, hcontext])

theorem lookup_fields_position :
    (e.fields L stamp).lookup "position" = e.position.map (positionDoc L) := by
  cases hp : e.position with
  | none =>
      refine lookup_eq_none_of_notMem ?_
      by_cases hcontext : e.context = [] <;> cases he : e.isError <;>
        simp [fields, hcontext, he, hp]
  | some p => exact e.lookup_fields (by simp [fields, hp])

theorem lookup_fields_entry :
    (e.fields L stamp).lookup "error_metadata" =
      if e.isError then some (entryDoc L e.code) else none := by
  cases he : e.isError with
  | false =>
      refine lookup_eq_none_of_notMem ?_
      by_cases hcontext : e.context = [] <;> cases hp : e.position <;>
        simp [fields, hcontext, he, hp]
  | true => exact e.lookup_fields (by simp [fields, he])

/-- An event is put together from texts, truth values and naturals. What holds of these,
and of records whose members it holds of, holds of the event. -/
theorem toDoc_induction {P : L.Doc → Prop} (htext : ∀ s, P (L.text s))
    (hbool : ∀ b, P (L.bool b)) (hword : ∀ n, P (L.word n))
    (hrecord : ∀ fields : List (String × L.Doc),
      (fields.map (·.1)).Nodup → (∀ f ∈ fields, P f.2) → P (L.record fields))
    (hcontext : P (e.context.toDoc L)) (hoffset : ∀ p ∈ e.position, P (L.nat p.offset)) :
    P (e.toDoc L stamp) := by
  have hentry : P (entryDoc L e.code) := by
    refine hrecord _ (by simp) ?_
    simp [htext, hbool]
  have hposition : ∀ p ∈ e.position, P (positionDoc L p) := by
    intro p hp
    refine hrecord _ (by simp) ?_
    simp [hword, hoffset p hp]
  refine hrecord _ e.nodup_fields ?_
  simp only [fields, List.forall_mem_append, List.forall_mem_cons, List.not_mem_nil, false_implies,
    implies_true, and_true, Option.mem_toList, Option.map_eq_some_iff]
  refine ⟨⟨⟨⟨⟨⟨htext _, htext _⟩, ?_⟩, ?_⟩, htext _, htext _⟩, ?_⟩, htext _, htext _⟩
  · split <;> simp [hcontext]
  · split <;> simp [hentry]
  · rintro _ ⟨p, hp, rfl⟩
    exact hposition p hp

/-- Every event is written by a text without control characters. -/
theorem writes_toDoc (hL : L.Lawful) : L.Writes (e.toDoc L stamp) := by
  refine e.toDoc_induction (writes_text hL) (writes_bool hL) (fun n => writes_nat hL n.toNat)
    (fun _ _ => writes_record hL) (writes_record hL fun f hf => ?_) fun p _ => writes_nat hL p.offset
  obtain ⟨kv, -, rfl⟩ := List.mem_map.1 hf
  exact writes_text hL kv.2

theorem built_toDoc {e : Event} (he : e.IsProper) : L.Built (e.toDoc L stamp) := by
  have hnames : ((e.context.map fun kv => (kv.1, L.text kv.2)).map (·.1)).Nodup := by
    rw [List.map_map]
    exact he.sorted.imp ne_of_lt
  refine e.toDoc_induction .text .bool .word (fun _ => .record) (.record hnames fun f hf => ?_)
    fun p hp => .nat (he.offset_lt p hp)
  obtain ⟨kv, -, rfl⟩ := List.mem_map.1 hf
  exact .text kv.2

theorem ofDoc?_positionDoc (hL : L.Lawful) {p : Position} (hp : p.offset < UInt64.size) :
    Position.ofDoc? L (positionDoc L p) = some p := by
  rw [positionDoc, Position.ofDoc?, hL.toMembers?_record (by simp)]
  simp [List.lookup_cons, hL.toNat?_nat _ hp, hL.toWord?_word]

theorem ofDoc?_contextDoc (hL : L.Lawful) {context : Context} (h : context.IsSorted) :
    Context.ofDoc? L (context.toDoc L) = some context := by
  have hnames : ((context.map fun kv => (kv.1, L.text kv.2)).map (·.1)).Nodup := by
    rw [List.map_map]
    exact h.imp ne_of_lt
  rw [Context.ofDoc?, Context.toDoc, hL.toMembers?_record hnames, Option.bind_some]
  refine mapM_map_eq_some fun kv _ => ?_
  rw [hL.toText?_text, Option.map_some]

/-- The text of an event tells the event. -/
theorem read?_of_write? (hL : L.Lawful) {e : Event} (he : e.IsProper) {s : String}
    (hs : e.write? L stamp = some s) : JournalLine.read? L s = some (e.line stamp) := by
  have htime : (e.fields L stamp).lookup "timestamp" = some (L.text (stamp e.time)) :=
    e.lookup_fields (by simp [fields])
  have hlevel : (e.fields L stamp).lookup "level" = some (L.text e.level.name) :=
    e.lookup_fields (by simp [fields])
  have hcode : (e.fields L stamp).lookup "code" = some (L.text e.code.text) :=
    e.lookup_fields (by simp [fields])
  have hmessage : (e.fields L stamp).lookup "message" = some (L.text e.message) :=
    e.lookup_fields (by simp [fields])
  have hcontext : (((e.line stamp).context.map (Context.toDoc L)).mapM (Context.ofDoc? L)) =
      some (e.line stamp).context := by
    unfold line
    split
    · rfl
    · simp [ofDoc?_contextDoc hL he.sorted]
  have hposition : (e.position.map (positionDoc L)).mapM (Position.ofDoc? L) =
      some e.position := by
    cases hp : e.position with
    | none => rfl
    | some p => simp [ofDoc?_positionDoc hL (he.offset_lt p hp)]
  have hentry : ((e.fields L stamp).lookup "error_metadata").isSome = e.isError := by
    rw [e.lookup_fields_entry]
    cases e.isError <;> rfl
  have hmembers : (L.toMembers? (e.toDoc L stamp)).filter
      (fun fields => (fields.map (·.1)).Nodup) = some (e.fields L stamp) := by
    rw [toDoc, hL.toMembers?_record e.nodup_fields, Option.filter_some,
      if_pos (by simpa using e.nodup_fields)]
  rw [JournalLine.read?, hL.read?_of_write? (built_toDoc he) hs, Option.bind_some,
    JournalLine.ofDoc?, hmembers]
  simp only [Option.bind_eq_bind, Option.bind_some, htime, hlevel, hcode, hmessage,
    e.lookup_fields_context, e.lookup_fields_position, hL.toText?_text, Level.ofName?_name,
    hcontext, hposition, hentry]
  rfl

variable (L stamp)

/-- The text of an event fits on a line and tells the event. -/
structure Framed : Prop where
  /-- The text is that of the library, not the one that stands in for it. -/
  written : e.write? L stamp = some (e.structuredText L stamp)
  /-- No byte of the text is a control character. -/
  printable : ∀ b ∈ Utf8.bytes (e.structuredText L stamp), 0x20 ≤ b.toNat
  told : e.IsProper → JournalLine.read? L (e.structuredText L stamp) = some (e.line stamp)
  dated : e.IsProper → e.time.IsDated →
    ∃ l, JournalLine.read? L (e.structuredText L stamp) = some l ∧ Instant.IsTimestamp l.time

variable {L stamp}

theorem printable_structuredText (hL : L.Lawful) :
    Json.Printable (e.structuredText L stamp).toList := by
  obtain ⟨s, hs, hprintable⟩ : L.Writes (e.toDoc L stamp) := e.writes_toDoc hL
  rwa [structuredText, write?, hs, Option.getD_some]

theorem framed (hL : L.Lawful) (hstamp : ∀ t : Instant, t.IsDated → Instant.IsTimestamp (stamp t)) :
    e.Framed L stamp := by
  obtain ⟨s, hs, -⟩ : L.Writes (e.toDoc L stamp) := e.writes_toDoc hL
  have hwritten : e.write? L stamp = some (e.structuredText L stamp) := by
    rw [structuredText, write?, hs, Option.getD_some]
  exact
    { written := hwritten
      printable := fun b hb => (e.printable_structuredText hL).le_of_mem_encode hb
      told := fun he => read?_of_write? hL he hwritten
      dated := fun he ht => ⟨_, read?_of_write? hL he hwritten, hstamp e.time ht⟩ }

end Event

namespace Transcript

def stream (t : Transcript) (errors : Bool) : String := if errors then t.errors else t.output

end Transcript

namespace Channel

/-! ## What is printed -/

variable (level : Level) (gate : Option Level) (written : Event → String) (own : Level)
  (t : Transcript)

/-- The terminal prints an event if it reaches the terminal and is admitted there. -/
def isPrinted (e : Event) : Bool := letsThrough level gate e && own.admits e.level

/-- The events that steps print, in order. -/
def printed : Level → List Step → List Event
  | _, [] => []
  | level, step :: steps =>
    (step.event?.filter (isPrinted level gate own)).toList ++
      printed (step.level?.getD level) steps

def printAll (events : List Event) : Transcript :=
  events.foldl (fun t e => printEvent written e t) t

theorem send_terminal (e : Event) :
    send ⟨level, gate, .terminal written own⟩ e t =
      (⟨level, gate, .terminal written own⟩,
        if isPrinted level gate own e then printEvent written e t else t) := by
  rw [send, passes_eq_letsThrough, isPrinted]
  cases letsThrough level gate e <;> rfl

/-- One step prints at most the event that it logs. -/
theorem perform_terminal (step : Step) :
    perform ⟨level, gate, .terminal written own⟩ t step =
      (⟨step.level?.getD level, gate, .terminal written own⟩,
        printAll written t (step.event?.filter (isPrinted level gate own)).toList) := by
  cases he : step.event? with
  | none =>
      cases step with
      | setLevel new => rfl
      | clear => rfl
      | _ => cases he
  | some e =>
      rw [perform_of_event? t he, send_terminal, Step.level?_of_event? he, Option.filter_some]
      split <;> rfl

/-- A run prints the events that are admitted, and changes nothing else but the level
of the channel. -/
theorem run_terminal (steps : List Step) :
    run ⟨level, gate, .terminal written own⟩ t steps =
      (⟨levelAfter level steps, gate, .terminal written own⟩,
        printAll written t (printed gate own level steps)) := by
  induction steps generalizing level t with
  | nil => rfl
  | cons step steps ih =>
      rw [run, List.foldl_cons, perform_terminal, ← run, ih, printed, printAll, printAll, printAll,
        List.foldl_append]
      rfl

theorem toList_stream_printEvent (e : Event) (errors : Bool) :
    ((printEvent written e t).stream errors).toList = (t.stream errors).toList ++
      ([e].filter (·.isError == errors)).flatMap (fun e => (written e).toList ++ ['\n']) := by
  cases he : e.isError <;> cases errors <;>
    simp [printEvent, Transcript.printOutput, Transcript.printError, Transcript.stream, he]

theorem toList_stream_printAll (events : List Event) (errors : Bool) :
    ((printAll written t events).stream errors).toList = (t.stream errors).toList ++
      (events.filter (·.isError == errors)).flatMap (fun e => (written e).toList ++ ['\n']) := by
  induction events generalizing t with
  | nil => simp [printAll]
  | cons e events ih =>
      rw [printAll, List.foldl_cons, ← printAll, ih, toList_stream_printEvent, List.append_assoc,
        ← List.flatMap_append, ← List.filter_append, List.singleton_append]

variable {written}

/-- The lines of a stream are the texts of the events that were printed on it, provided
that there is no line feed in them. -/
theorem lines_stream_printAll (hwritten : ∀ e, '\n' ∉ (written e).toList) (events : List Event)
    (errors : Bool) :
    Text.lines ((printAll written {} events).stream errors) =
      (events.filter (·.isError == errors)).map (fun e => (written e).toList) ++ [[]] := by
  have hfeed : ∀ l ∈ (events.filter (·.isError == errors)).map (fun e => (written e).toList),
      '\n' ∉ l := by
    intro l hl
    obtain ⟨e, -, rfl⟩ := List.mem_map.1 hl
    exact hwritten e
  have hempty : (Transcript.stream {} errors).toList = [] := by cases errors <;> rfl
  rw [Text.lines, toList_stream_printAll, hempty, List.nil_append,
    ← Text.splitOn_flatMap_lineFeed hfeed, List.flatMap_map]

/-- Let a library for JSON obey the laws, and let dated instants be written as
timestamps. Then every event is told by a text without control characters, and whatever
was done to a channel to the terminal, the lines of its streams are the texts of the
events that were printed, one line for each of them. -/
theorem framed_journal (L : Json.Library) (hL : L.Lawful) (stamp : Instant → String)
    (hstamp : ∀ t : Instant, t.IsDated → Instant.IsTimestamp (stamp t)) :
    (∀ e : Event, e.Framed L stamp) ∧
      ∀ (level : Level) (gate : Option Level) (own : Level) (steps : List Step) (errors : Bool),
        Text.lines ((run ⟨level, gate, .terminal (Event.structuredText L stamp) own⟩ {}
            steps).2.stream errors) =
          ((printed gate own level steps).filter (·.isError == errors)).map
            (fun e => (e.structuredText L stamp).toList) ++ [[]] := by
  refine ⟨fun e => e.framed hL hstamp, fun level gate own steps errors => ?_⟩
  rw [run_terminal]
  exact lines_stream_printAll (fun e => (e.printable_structuredText hL).lineFeed_notMem)
    (printed gate own level steps) errors

/-- A message that looks like further lines, and a name and a value with characters that
are escaped, are told as they are. -/
theorem framed_forgery :
    Json.standard.Lawful ∧ (∀ t : Instant, t.IsDated → Instant.IsTimestamp t.text) ∧
      ∃ e : Event, e = ⟨⟨0, 0⟩, .error, .fileNotFound, "\"\n[INFO]", some ⟨3, 1, 4⟩,
          [("a\x00", "\\é")]⟩ ∧
        e.IsProper ∧ e.time.IsDated ∧
        JournalLine.read? Json.standard (e.structuredText Json.standard Instant.text) =
          some ⟨"1970-01-01T00:00:00+00:00", .error, .fileNotFound, "\"\n[INFO]",
            some [("a\x00", "\\é")], some ⟨3, 1, 4⟩, true⟩ := by
  have hframed := (framed_journal Json.standard Json.lawful_standard Instant.text
    fun _ => Instant.isTimestamp_text).1
  have hproper : Event.IsProper ⟨⟨0, 0⟩, .error, .fileNotFound, "\"\n[INFO]", some ⟨3, 1, 4⟩,
      [("a\x00", "\\é")]⟩ := by
    refine ⟨List.pairwise_singleton _ _, ?_⟩
    rintro p ⟨rfl⟩
    decide
  have htime : Instant.text ⟨0, 0⟩ = "1970-01-01T00:00:00+00:00" := by decide +kernel
  refine ⟨Json.lawful_standard, fun _ => Instant.isTimestamp_text, _, rfl, hproper,
    ⟨by decide, by decide, by decide⟩, ?_⟩
  rw [(hframed _).told hproper, Event.line, htime]
  rfl

end Channel

end UniformBlock
