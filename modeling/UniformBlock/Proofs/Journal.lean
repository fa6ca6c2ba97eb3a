import UniformBlock.Session

/-!
# What the journal keeps

Three facts about logging, each for one step and then for a run of steps.

* A context holds what was set last under each name.
* A store takes every event it is given, and a full one gives up as many of its
  oldest events for them.
* Inside a scope every event is kept while the budget of the scope lasts. Such
  an event comes into the store with its message cut and its document named
  (`Session.recorded`), and nothing but the store and the budget changes.
-/

namespace UniformBlock

namespace Context

theorem lookup_cons_eq_ite (key value name : String) (rest : List (String × String)) :
    List.lookup name ((key, value) :: rest) =
      if name = key then some value else rest.lookup name := by
  rw [List.lookup_cons]
  by_cases h : name = key
  · rw [if_pos h, beq_iff_eq.2 h]
  · rw [if_neg h, beq_eq_false_iff_ne.2 h]

theorem get?_insert (context : Context) (key value name : String) :
    (context.insert key value).get? name =
      if name = key then some value else context.get? name := by
  simp only [get?]
  induction context with
  | nil => exact lookup_cons_eq_ite key value name []
  | cons entry rest ih =>
      obtain ⟨k, v⟩ := entry
      by_cases hk : key = k
      · subst hk
        by_cases h : name = key <;> simp [insert, lookup_cons_eq_ite, h]
      · by_cases hlt : key < k
        · simp only [insert, if_neg hk, if_pos hlt, lookup_cons_eq_ite]
        · simp only [insert, if_neg hk, if_neg hlt, lookup_cons_eq_ite, ih]
          by_cases h : name = k
          · rw [if_pos h, if_neg (fun heq => hk (heq.symm.trans h)), if_pos h]
          · simp only [if_neg h]

/-- Values with different names are all kept. -/
theorem get?_insertAll (context : Context) {values : List (String × String)}
    (hnodup : (values.map Prod.fst).Nodup) (name : String) :
    (context.insertAll values).get? name = (values.lookup name).or (context.get? name) := by
  induction values generalizing context with
  | nil => rfl
  | cons entry rest ih =>
      obtain ⟨key, value⟩ := entry
      rw [List.map_cons, List.nodup_cons] at hnodup
      have hfirst : (context.insertAll ((key, value) :: rest)) =
          (context.insert key value).insertAll rest := rfl
      rw [hfirst, ih _ hnodup.2, get?_insert, lookup_cons_eq_ite]
      by_cases h : name = key
      · have hnone : rest.lookup name = none := by
          rw [List.lookup_eq_none_iff]
          intro later hlater
          have hne : name ≠ later.1 := by
            intro heq
            exact hnodup.1 (List.mem_map.2 ⟨later, hlater, heq.symm.trans h⟩)
          simpa using hne
        rw [if_pos h, if_pos h, hnone]
        rfl
      · rw [if_neg h, if_neg h]

end Context

namespace EventStore

def pushAll (store : EventStore) (events : List Event) : EventStore := events.foldl push store

@[simp] theorem pushAll_nil (store : EventStore) : store.pushAll [] = store := rfl

@[simp] theorem pushAll_cons (store : EventStore) (e : Event) (events : List Event) :
    store.pushAll (e :: events) = (store.push e).pushAll events := rfl

/-- A store has all events it was given last, and gives up an old event only for
one that has no room. -/
theorem toList_pushAll (store : EventStore) (events : List Event)
    (hfew : events.length ≤ Limits.storedEvents) :
    (store.pushAll events).toList =
      store.toList.drop (events.length - (Limits.storedEvents - store.toList.length)) ++
        events := by
  have hroom : 0 < Limits.storedEvents := by decide
  induction events generalizing store with
  | nil => simp
  | cons e events ih =>
      have hle : store.toList.length ≤ Limits.storedEvents := store.length_toList ▸ store.count_le
      rw [List.length_cons] at hfew
      rw [pushAll_cons, ih _ (by omega), toList_push, List.length_cons]
      generalize Limits.storedEvents = room at hroom hle hfew ⊢
      rw [List.length_append, List.length_drop, List.length_singleton,
        List.drop_append_of_le_length (by rw [List.length_drop]; omega), List.drop_drop,
        List.append_assoc, List.singleton_append]
      congr 2
      omega

end EventStore

namespace Event

/-- Name a document in the context, if there is one to name. -/
def naming (document : Option String) (e : Event) : Event :=
  match document with
  | none => e
  | some name => e.withContext "document" name

end Event

namespace Session

/-- The name that events about a document carry, if they are to carry one. -/
def documentName (s : Session) (document : String) : Option String :=
  if s.journal.nameDocument then some document else none

/-- An event about a document as it comes into the store. -/
def recorded (s : Session) (document : String) (e : Event) : Event :=
  (clamp e).naming (s.documentName document)

theorem tag_eq_naming {s : Session} {scope : Scope} (hscope : s.scope = some scope) (e : Event) :
    s.tag e = e.naming (s.documentName scope.document) := by
  simp only [tag, hscope, documentName]
  split <;> rfl

/-- The channel that hands every event to a store. -/
def storing (store : EventStore) : Channel := ⟨.debug, none, .store store⟩

theorem send_storing {s : Session} {store : EventStore} (hs : s.channel = some (storing store))
    (e : Event) : s.send e = { s with channel := some (storing (store.push e)) } := by
  have hpass : (storing store).passes e.level = true := by
    simp [storing, Channel.passes, Channel.admits]
  simp only [send, hs, Channel.send, if_pos hpass]
  rfl

/-- One event, while the budget lasts. -/
theorem log_of_lt {s : Session} {store : EventStore} {scope : Scope}
    (hs : s.channel = some (storing store)) (hscope : s.scope = some scope)
    (hlt : scope.logged < Limits.documentEvents) (e : Event) :
    s.log e = { s with
      scope := some { scope with logged := scope.logged + 1 }
      channel := some (storing (store.push (s.recorded scope.document e))) } := by
  have hadmit : (storing store).admits e.level = true := by
    simp [storing, Channel.admits]
  have hcharge : charge? s.scope = some (some { scope with logged := scope.logged + 1 }) := by
    simp only [hscope, charge?, Scope.charge?, if_pos hlt, Option.map_some]
  simp only [log, hs, if_pos hadmit, hcharge]
  rw [send_storing rfl, tag_eq_naming hscope]
  rfl

/-- A run of events, while the budget lasts. -/
theorem logAll_of_le {s : Session} {store : EventStore} {scope : Scope}
    (hs : s.channel = some (storing store)) (hscope : s.scope = some scope) (events : List Event)
    (hle : scope.logged + events.length ≤ Limits.documentEvents) :
    s.logAll events = { s with
      scope := some { scope with logged := scope.logged + events.length }
      channel := some
        (storing (store.pushAll (events.map (s.recorded scope.document)))) } := by
  induction events generalizing s store scope with
  | nil =>
      obtain ⟨environment, clock, preferences, channel, scope', transcript⟩ := s
      obtain rfl : channel = _ := hs
      obtain rfl : scope' = _ := hscope
      rfl
  | cons e events ih =>
      rw [List.length_cons] at hle
      have hnext : scope.logged + 1 + events.length ≤ Limits.documentEvents := by omega
      rw [logAll_cons, log_of_lt hs hscope (by omega), ih rfl rfl hnext, List.length_cons,
        Nat.add_right_comm scope.logged 1, ← Nat.add_assoc, List.map_cons,
        EventStore.pushAll_cons]
      rfl

end Session

end UniformBlock
