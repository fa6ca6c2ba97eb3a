import Mathlib.Data.List.DropRight
import UniformBlock.Journal.Channel

/-!
# What a store retains

A channel into a store is used step by step: events are logged, the level of the
channel is set, the store is emptied. Which events count at the end is said
without the store (`Channel.counted`): those that the level in force and the gate
admitted when they were logged, and after which nothing was emptied.

The store holds the latest of the events that count, as many as it has room for,
in their order and as they were logged (`Channel.retains_of_run`). One step keeps
this up: a new event at the end of the list of those that count pushes out the
oldest one exactly when the store is full (`EventStore.toList_push_of_eq_rtake`).
-/

namespace UniformBlock

namespace EventStore

/-- A store that holds the latest events of a list still does so when the list
and the store have one event more. -/
theorem toList_push_of_eq_rtake {store : EventStore} {events : List Event}
    (h : store.toList = events.rtake Limits.storedEvents) (e : Event) :
    (store.push e).toList = (events ++ [e]).rtake Limits.storedEvents := by
  have hroom : 0 < Limits.storedEvents := by decide
  have hlength : store.toList.length = min Limits.storedEvents events.length := by
    rw [h, List.rtake, List.length_drop]
    omega
  rw [toList_push]
  generalize Limits.storedEvents = room at hroom hlength h ⊢
  rw [hlength, h, List.rtake, List.rtake, List.length_append, List.length_singleton,
    List.drop_append_of_le_length (by omega), List.drop_drop]
  congr 2
  omega

end EventStore

namespace Channel

/-- What is done to a channel. Events of the usual kinds have steps of their own,
beside the one for any event. -/
inductive Step where
  | event (e : Event)
  | failure (time : Instant) (code : Code) (message : String)
  | success (time : Instant) (code : Code) (message : String)
  | information (time : Instant) (message : String)
  | detail (time : Instant) (message : String)
  | setLevel (level : Level)
  | clear
deriving DecidableEq

namespace Step

def event? : Step → Option Event
  | event e => some e
  | failure time code message => some (.failure time code message)
  | success time code message => some (.success time code message)
  | information time message => some (.information time message)
  | detail time message => some (.detail time message)
  | setLevel _ => none
  | clear => none

def level? : Step → Option Level
  | setLevel level => some level
  | _ => none

/-- A step that logs an event sets no level. -/
theorem level?_of_event? {step : Step} {e : Event} (he : step.event? = some e) :
    step.level? = none := by
  cases step <;> cases he <;> rfl

end Step

def perform (c : Channel) (t : Transcript) : Step → Channel × Transcript
  | .event e => c.send e t
  | .failure time code message => c.send (.failure time code message) t
  | .success time code message => c.send (.success time code message) t
  | .information time message => c.send (.information time message) t
  | .detail time message => c.send (.detail time message) t
  | .setLevel level => (c.setLevel level, t)
  | .clear => (c.clear, t)

def run (c : Channel) (t : Transcript) (steps : List Step) : Channel × Transcript :=
  steps.foldl (fun state step => state.1.perform state.2 step) (c, t)

/-- The level in force after steps: the one that was set last. -/
def levelAfter (level : Level) (steps : List Step) : Level :=
  steps.foldl (fun level step => step.level?.getD level) level

/-- A level, and a gate if there is one, let an event through. -/
def letsThrough (level : Level) (gate : Option Level) (e : Event) : Bool :=
  e.level.rank ≤ level.rank && gate.all fun most => e.level.rank ≤ most.rank

/-- The events that count after steps, in order: those that were let through by
the level in force when they were logged, and that no later step has cleared. -/
def counted (gate : Option Level) : Level → List Step → List Event
  | _, [] => []
  | level, step :: steps =>
    (if Step.clear ∈ steps then [] else (step.event?.filter (letsThrough level gate)).toList) ++
      counted gate (step.level?.getD level) steps

variable (level : Level) (gate : Option Level) (store : EventStore) (t : Transcript)

theorem levelAfter_concat (steps : List Step) (step : Step) :
    levelAfter level (steps ++ [step]) = step.level?.getD (levelAfter level steps) := by
  rw [levelAfter, List.foldl_append]
  rfl

/-- Nothing counts that was logged before the store was emptied. -/
theorem counted_concat_clear (steps : List Step) : counted gate level (steps ++ [.clear]) = [] := by
  induction steps generalizing level with
  | nil => rfl
  | cons step steps ih =>
      rw [List.cons_append, counted, ih, if_pos (by simp), List.append_nil]

/-- Any other step adds the event it logs, if that is let through. -/
theorem counted_concat (steps : List Step) {step : Step} (hstep : step ≠ .clear) :
    counted gate level (steps ++ [step]) = counted gate level steps ++
      (step.event?.filter (letsThrough (levelAfter level steps) gate)).toList := by
  induction steps generalizing level with
  | nil => simp [counted, levelAfter]
  | cons first steps ih =>
      have hclear : Step.clear ∈ steps ++ [step] ↔ Step.clear ∈ steps := by
        simp [Ne.symm hstep]
      rw [List.cons_append, counted, counted, ih, List.append_assoc]
      simp only [hclear]
      rfl

theorem passes_eq_letsThrough (destination : Destination) (e : Event) :
    passes ⟨level, gate, destination⟩ e.level = letsThrough level gate e := by
  cases gate <;> rfl

theorem send_store (e : Event) :
    send ⟨level, gate, .store store⟩ e t =
      (⟨level, gate, .store (if letsThrough level gate e then store.push e else store)⟩, t) := by
  rw [send, passes_eq_letsThrough]
  split <;> rfl

theorem perform_of_event? {step : Step} {e : Event} (he : step.event? = some e) (c : Channel) :
    c.perform t step = c.send e t := by
  cases step <;> cases he <;> rfl

/-- What one step does to a channel into a store, unless it empties the store. -/
theorem perform_store {step : Step} (hstep : step ≠ .clear) :
    perform ⟨level, gate, .store store⟩ t step =
      (⟨step.level?.getD level, gate,
        .store ((step.event?.filter (letsThrough level gate)).elim store store.push)⟩, t) := by
  cases he : step.event? with
  | none =>
      cases step with
      | setLevel new => rfl
      | clear => exact absurd rfl hstep
      | _ => cases he
  | some e =>
      rw [perform_of_event? t he, send_store, Step.level?_of_event? he, Option.filter_some]
      split <;> rfl

/-- The store behind a channel after steps that began with an empty store. -/
structure Retains (steps : List Step) (store : EventStore) : Prop where
  /-- Apart from the store, only the level of the channel changes. -/
  run_eq : run (toStore level gate) t steps =
    (⟨levelAfter level steps, gate, .store store⟩, t)
  toList_eq : store.toList = (counted gate level steps).rtake Limits.storedEvents
  count_eq : store.count = min Limits.storedEvents (counted gate level steps).length
  /-- An event that is let through is the newest one of the store. -/
  newest : ∀ before step e, steps = before ++ [step] → step.event? = some e →
    letsThrough (levelAfter level before) gate e = true → store.toList.getLast? = some e

theorem exists_run_eq (steps : List Step) :
    ∃ store : EventStore, run (toStore level gate) t steps =
        (⟨levelAfter level steps, gate, .store store⟩, t) ∧
      store.toList = (counted gate level steps).rtake Limits.storedEvents := by
  -- on the number of steps, from the end: the last step sees all others
  induction steps using List.reverseRecOn with
  | nil => exact ⟨.empty, rfl, by rw [counted, List.rtake_nil]; rfl⟩
  | append_singleton steps step ih =>
      obtain ⟨store, hrun, hlist⟩ := ih
      have hlast : run (toStore level gate) t (steps ++ [step]) =
          perform ⟨levelAfter level steps, gate, .store store⟩ t step := by
        rw [run, List.foldl_append]
        exact congrArg (fun state : Channel × Transcript => state.1.perform state.2 step) hrun
      rw [hlast, levelAfter_concat]
      by_cases hstep : step = .clear
      · subst hstep
        exact ⟨.empty, rfl, by rw [counted_concat_clear, List.rtake_nil]; rfl⟩
      · refine ⟨_, perform_store _ gate store t hstep, ?_⟩
        rw [counted_concat level gate steps hstep]
        cases step.event?.filter (letsThrough (levelAfter level steps) gate) with
        | none => rw [Option.toList_none, List.append_nil]; exact hlist
        | some e => exact EventStore.toList_push_of_eq_rtake hlist e

/-- A store retains exactly the latest events that count, whatever was logged,
set and emptied before. -/
theorem retains_of_run (steps : List Step) : ∃ store, Retains level gate t steps store := by
  obtain ⟨store, hrun, hlist⟩ := exists_run_eq level gate t steps
  refine ⟨store, hrun, hlist, ?_, ?_⟩
  · rw [← EventStore.length_toList, hlist, List.rtake, List.length_drop]
    omega
  · rintro before step e rfl he hthrough
    have hstep : step ≠ .clear := by
      rintro rfl
      cases he
    have hcounted := counted_concat level gate before hstep
    rw [he, Option.filter_some, if_pos hthrough, Option.toList_some] at hcounted
    have hroom : Limits.storedEvents = Limits.storedEvents - 1 + 1 := by decide
    rw [hlist, hcounted, hroom, List.rtake_concat_succ, List.getLast?_concat]

-- the first event was cleared, and the second one came when only errors were let through
example : counted none .debug [.detail default "a", .clear, .setLevel .error,
    .information default "b", .failure default .internalError "c"] =
      [.failure default .internalError "c"] := by
  decide

end Channel

end UniformBlock
