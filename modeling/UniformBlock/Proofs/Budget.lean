import UniformBlock.Proofs.Journal
import UniformBlock.Proofs.Retention

/-!
# The budget of a scope

Work in a session logs events and opens scopes, which may open further scopes.
The session keeps one scope at a time: it puts the scope at work aside when it
opens another one, and takes it up again afterwards. Here the scopes of a piece
of work are numbered in the order in which they are opened (`Work.calls`), and
one ledger holds the budgets of all of them; it puts nothing aside (`spend`).

Every call keeps the two in step, and so does every scope that is opened and left
(`Ledger.Matches`). Work therefore hands exactly those calls to the channel for
which the ledger has something left (`Session.perform_forward`). A ledger is easy
to read scope by scope: every scope forwards the first calls made directly in it,
as many as its budget allows, whatever happens in the scopes inside and around it
(`Session.budgeted_of_channel`).
-/

namespace UniformBlock

/-! ## Work -/

/-- A call that logs an event about documents. -/
inductive Call where
  | failure (code : Code) (message : String) (position : Option Position)
      (context : List (String × String))
  | success (code : Code) (message : String) (context : List (String × String))
  | information (message : String) (context : List (String × String))
  | detail (message : String) (context : List (String × String))

namespace Call

def event (time : Instant) : Call → Event
  | failure code message position context =>
    { Event.failure time code message with position }.withContexts context
  | success code message context => (Event.success time code message).withContexts context
  | information message context => (Event.information time message).withContexts context
  | detail message context => (Event.detail time message).withContexts context

def level : Call → Level
  | failure _ _ _ _ => .error
  | success _ _ _ => .info
  | information _ _ => .info
  | detail _ _ => .debug

/-- A journal of the given level keeps the call. -/
def isKeptBy (most : Level) (c : Call) : Bool := c.level.rank ≤ most.rank

end Call

def Session.make (s : Session) : Call → Session
  | .failure code message position context => s.logFailure code message position context
  | .success code message context => s.logSuccess code message context
  | .information message context => s.logInformation message context
  | .detail message context => s.logDetail message context

theorem Session.make_eq_log (s : Session) (c : Call) : s.make c = s.log (c.event s.clock.now) := by
  cases c <;> rfl

/-- A piece of work: calls, and further work within scopes of its own. -/
inductive Work where
  | done
  | call (c : Call) (rest : Work)
  | within (document : String) (inner rest : Work)

namespace Work

def perform : Work → Session → Session
  | done, s => s
  | call c rest, s => rest.perform (s.make c)
  | within document inner rest, s =>
    rest.perform (s.within document fun t => ((), inner.perform t)).2

/-- The calls made directly, not in a scope that the work opens. -/
def direct : Work → List Call
  | done => []
  | call c rest => c :: rest.direct
  | within _ _ rest => rest.direct

/-- The scopes that the work opens, in the order in which it opens them: the
document of each, and the work done in it. -/
def scopes : Work → List (String × Work)
  | done => []
  | call _ rest => rest.scopes
  | within document inner rest => (document, inner) :: inner.scopes ++ rest.scopes

end Work

/-- A call with the number of the scope it is made in, and the document of that
scope. -/
structure Logged where
  scope : Nat
  document : Option String
  call : Call

/-- All calls of the work in their order. The work itself is done in the given
scope, and the scopes that it opens are numbered from `next` on. -/
def Work.calls (scope : Nat) (document : Option String) (next : Nat) : Work → List Logged
  | .done => []
  | .call c rest => ⟨scope, document, c⟩ :: rest.calls scope document next
  | .within d inner rest =>
    inner.calls next (some d) (next + 1) ++
      rest.calls scope document (next + 1 + inner.scopes.length)

/-! ## The ledger -/

/-- For each scope the number of events it may still log; `none` stands for no
limit. -/
abbrev Ledger := Nat → Option Nat

namespace Ledger

def charge (ledger : Ledger) (scope : Nat) : Ledger :=
  fun n => if n = scope then (ledger n).map (· - 1) else ledger n

def chargeAll (ledger : Ledger) (calls : List Logged) : Ledger :=
  calls.foldl (fun ledger l => ledger.charge l.scope) ledger

/-- The calls for which the ledger has something left. -/
def spend (ledger : Ledger) : List Logged → List Logged
  | [] => []
  | l :: calls =>
    (if ledger l.scope = some 0 then [] else [l]) ++ (ledger.charge l.scope).spend calls

/-- The first entries of a list, as many as a limit allows. -/
def upTo {α : Type} (limit : Option Nat) (xs : List α) : List α := limit.elim xs fun n => xs.take n

theorem upTo_map {α β : Type} (limit : Option Nat) (f : α → β) (xs : List α) :
    upTo limit (xs.map f) = (upTo limit xs).map f := by
  cases limit with
  | none => rfl
  | some n => exact List.map_take.symm

theorem spend_append (ledger : Ledger) (xs ys : List Logged) :
    ledger.spend (xs ++ ys) = ledger.spend xs ++ (ledger.chargeAll xs).spend ys := by
  induction xs generalizing ledger with
  | nil => rfl
  | cons l xs ih => rw [List.cons_append, spend, spend, ih, List.append_assoc]; rfl

/-- Charges leave alone the scopes that are not charged. -/
theorem chargeAll_of_forall_ne (ledger : Ledger) {calls : List Logged} {n : Nat}
    (h : ∀ l ∈ calls, l.scope ≠ n) : ledger.chargeAll calls n = ledger n := by
  induction calls generalizing ledger with
  | nil => rfl
  | cons l calls ih =>
      have hne : n ≠ l.scope := (h l List.mem_cons_self).symm
      have hrest := ih (ledger.charge l.scope) fun k hk => h k (List.mem_cons_of_mem l hk)
      exact hrest.trans (if_neg hne)

theorem spend_sublist (ledger : Ledger) (calls : List Logged) :
    (ledger.spend calls).Sublist calls := by
  induction calls generalizing ledger with
  | nil => exact .slnil
  | cons l calls ih =>
      rw [spend]
      split
      · exact (ih _).cons l
      · exact (ih _).cons_cons l

/-- Scope by scope, the first calls are paid for. -/
theorem filter_spend (ledger : Ledger) (calls : List Logged) (n : Nat) :
    (ledger.spend calls).filter (·.scope == n) =
      upTo (ledger n) (calls.filter (·.scope == n)) := by
  induction calls generalizing ledger with
  | nil => cases h : ledger n <;> simp [spend, upTo]
  | cons l calls ih =>
      rw [spend, List.filter_append, ih]
      by_cases hn : l.scope = n
      · subst hn
        simp only [charge, if_true]
        rcases ledger l.scope with - | - | k <;> simp [upTo]
      · simp only [charge, if_neg (Ne.symm hn)]
        split <;> simp [hn]

end Ledger

/-! ## Calls scope by scope -/

namespace Work

/-- A scope that is opened has a number from `next` on, one for each scope. -/
theorem scope_of_mem_calls {work : Work} {scope next : Nat} {document : Option String} {l : Logged}
    (hl : l ∈ work.calls scope document next) :
    l.scope = scope ∨ next ≤ l.scope ∧ l.scope < next + work.scopes.length := by
  induction work generalizing scope document next with
  | done => cases hl
  | call c rest ih =>
      rcases List.mem_cons.1 hl with rfl | hl
      · exact .inl rfl
      · exact ih hl
  | within d inner rest ihi ihr =>
      rw [scopes, List.cons_append, List.length_cons, List.length_append]
      rcases List.mem_append.1 hl with hl | hl
      · have := ihi hl
        omega
      · have := ihr hl
        omega

/-- Work makes no calls in other scopes than its own and those it opens. -/
theorem scope_ne_of_mem_calls {work : Work} {scope next n : Nat} {document : Option String}
    {l : Logged} (hl : l ∈ work.calls scope document next) (hscope : n ≠ scope)
    (hnext : n < next ∨ next + work.scopes.length ≤ n) : l.scope ≠ n := by
  have hnumber := scope_of_mem_calls hl
  omega

theorem filter_calls_eq_nil (work : Work) {scope next n : Nat} (document : Option String)
    (hscope : n ≠ scope) (hnext : n < next ∨ next + work.scopes.length ≤ n) :
    (work.calls scope document next).filter (·.scope == n) = [] := by
  rw [List.filter_eq_nil_iff]
  intro l hl heq
  exact scope_ne_of_mem_calls hl hscope hnext (beq_iff_eq.1 heq)

/-- The calls in the scope of the work are those it makes directly. -/
theorem filter_calls_scope (work : Work) {scope next : Nat} (document : Option String)
    (hlt : scope < next) :
    (work.calls scope document next).filter (·.scope == scope) =
      work.direct.map (⟨scope, document, ·⟩) := by
  induction work generalizing next with
  | done => rfl
  | call c rest ih => simp [calls, direct, ih hlt]
  | within d inner rest ihi ihr =>
      rw [calls, List.filter_append, ihr (by omega),
        inner.filter_calls_eq_nil (some d) (by omega) (by omega), List.nil_append]
      rfl

/-- The calls in a scope that the work opens are those made directly in it. -/
theorem filter_calls_getElem (work : Work) {scope next : Nat} (document : Option String)
    (hlt : scope < next) {n : Nat} {name : String} {body : Work}
    (hn : work.scopes[n]? = some (name, body)) :
    (work.calls scope document next).filter (·.scope == next + n) =
      body.direct.map (⟨next + n, some name, ·⟩) := by
  induction work generalizing scope next document n with
  | done => cases hn
  | call c rest ih =>
      have hne : ¬ scope = next + n := by omega
      rw [calls, List.filter_cons_of_neg (by simp [hne])]
      exact ih document hlt hn
  | within d inner rest ihi ihr =>
      rw [calls, List.filter_append]
      cases n with
      | zero =>
          obtain ⟨rfl, rfl⟩ : d = name ∧ inner = body := by simpa [scopes] using hn
          rw [rest.filter_calls_eq_nil document (by omega) (by omega), List.append_nil]
          exact inner.filter_calls_scope (some d) (Nat.lt_succ_self next)
      | succ m =>
          have hm : (inner.scopes ++ rest.scopes)[m]? = some (name, body) := hn
          have hnumber : next + (m + 1) = next + 1 + m := by omega
          rw [hnumber]
          by_cases hin : m < inner.scopes.length
          · rw [List.getElem?_append_left hin] at hm
            rw [rest.filter_calls_eq_nil document (by omega) (by omega), List.append_nil]
            exact ihi (some d) (Nat.lt_succ_self next) hm
          · rw [List.getElem?_append_right (by omega)] at hm
            rw [inner.filter_calls_eq_nil (some d) (by omega) (by omega), List.nil_append]
            have hlater : scope < next + 1 + inner.scopes.length := by omega
            have hrest := ihr document hlater hm
            have hsum : next + 1 + inner.scopes.length + (m - inner.scopes.length) =
                next + 1 + m := by omega
            rw [hsum] at hrest
            exact hrest

/-- The calls of the work that a journal of the given level keeps and for which
the ledger has something left. -/
def paid (level : Level) (ledger : Ledger) (scope : Nat) (document : Option String) (next : Nat)
    (work : Work) : List Logged :=
  ledger.spend ((work.calls scope document next).filter (·.call.isKeptBy level))

section Paid

variable {level : Level} (rest : Work) (ledger : Ledger) (scope : Nat) (document : Option String)
  (next : Nat)

theorem paid_call_of_isKeptBy {c : Call} (h : c.isKeptBy level = true) :
    (call c rest).paid level ledger scope document next =
      (if ledger scope = some 0 then [] else [⟨scope, document, c⟩]) ++
        rest.paid level (ledger.charge scope) scope document next := by
  rw [paid, calls, List.filter_cons, if_pos h]
  rfl

theorem paid_call_of_not_isKeptBy {c : Call} (h : ¬ c.isKeptBy level = true) :
    (call c rest).paid level ledger scope document next =
      rest.paid level ledger scope document next := by
  rw [paid, calls, List.filter_cons, if_neg h]
  rfl

theorem paid_within (name : String) (inner : Work) :
    (within name inner rest).paid level ledger scope document next =
      inner.paid level ledger next (some name) (next + 1) ++
        rest.paid level (ledger.chargeAll
          ((inner.calls next (some name) (next + 1)).filter (·.call.isKeptBy level)))
          scope document (next + 1 + inner.scopes.length) := by
  rw [paid, calls, List.filter_append, Ledger.spend_append]
  rfl

end Paid

theorem paid_sublist (work : Work) (level : Level) (ledger : Ledger) (scope : Nat)
    (document : Option String) (next : Nat) :
    (work.paid level ledger scope document next).Sublist
      ((work.calls scope document next).filter (·.call.isKeptBy level)) :=
  ledger.spend_sublist _

theorem countP_paid_eq_zero (work : Work) (level : Level) (ledger : Ledger) {scope next n : Nat}
    (document : Option String) (hscope : n ≠ scope)
    (hnext : n < next ∨ next + work.scopes.length ≤ n) :
    (work.paid level ledger scope document next).countP (·.scope == n) = 0 := by
  rw [List.countP_eq_zero]
  intro l hl heq
  have hmem := ((paid_sublist work level ledger scope document next).trans
    List.filter_sublist).subset hl
  exact scope_ne_of_mem_calls hmem hscope hnext (beq_iff_eq.1 heq)

/-- Work charges no other scopes than its own and those it opens. -/
theorem chargeAll_filter_calls (work : Work) (level : Level) (ledger : Ledger)
    {scope next n : Nat} (document : Option String) (hscope : n ≠ scope)
    (hnext : n < next ∨ next + work.scopes.length ≤ n) :
    ledger.chargeAll ((work.calls scope document next).filter (·.call.isKeptBy level)) n =
      ledger n := by
  refine ledger.chargeAll_of_forall_ne fun l hl => ?_
  exact scope_ne_of_mem_calls (List.mem_filter.1 hl).1 hscope hnext

end Work

/-! ## Work in a session -/

namespace Scope

/-- The scope after further events were logged in it. -/
def charged (scope : Scope) (events : Nat) : Scope :=
  { scope with logged := scope.logged + events }

/-- The number of events that may still be logged in a scope, if there is a limit. -/
def remaining (scope : Option Scope) : Option Nat :=
  scope.map fun s => Limits.documentEvents - s.logged

theorem map_charged_zero (scope : Option Scope) : scope.map (·.charged 0) = scope := by
  cases scope <;> rfl

theorem map_charged_add (scope : Option Scope) (m n : Nat) :
    (scope.map (·.charged m)).map (·.charged n) = scope.map (·.charged (m + n)) := by
  rw [Option.map_map]
  congr 1
  funext scope
  simp [charged, Nat.add_assoc]

theorem remaining_charged (scope : Option Scope) (n : Nat) :
    remaining (scope.map (·.charged n)) = (remaining scope).map (· - n) := by
  cases scope <;> simp [remaining, charged, Nat.sub_add_eq]

end Scope

namespace Ledger

/-- The ledger stands as the scope at work, which has the given number, and the
scopes with numbers from `next` on are not opened yet. -/
structure Matches (ledger : Ledger) (scope : Option Scope) (number next : Nat) : Prop where
  number_lt : number < next
  eq_remaining : ledger number = Scope.remaining scope
  eq_full : ∀ n, next ≤ n → ledger n = some Limits.documentEvents

variable {ledger : Ledger} {scope : Option Scope} {number next : Nat}

theorem Matches.eq_remaining_charge (h : ledger.Matches scope number next) :
    ledger.charge number number = (Scope.remaining scope).map (· - 1) := by
  rw [charge, if_pos rfl, h.eq_remaining]

theorem Matches.eq_full_charge (h : ledger.Matches scope number next) {n : Nat} (hn : next ≤ n) :
    ledger.charge number n = some Limits.documentEvents := by
  have hne : n ≠ number := (h.number_lt.trans_le hn).ne'
  exact (if_neg hne).trans (h.eq_full n hn)

/-- A call that is forwarded is charged to both. -/
theorem Matches.charge (h : ledger.Matches scope number next) :
    (ledger.charge number).Matches (scope.map (·.charged 1)) number next :=
  ⟨h.number_lt, h.eq_remaining_charge.trans (Scope.remaining_charged scope 1).symm,
    fun _ => h.eq_full_charge⟩

/-- A call that is not forwarded finds both without budget, and leaves them so. -/
theorem Matches.charge_of_spent (h : ledger.Matches scope number next)
    (hspent : Scope.remaining scope = some 0) : (ledger.charge number).Matches scope number next :=
  ⟨h.number_lt, by rw [h.eq_remaining_charge, hspent]; rfl, fun _ => h.eq_full_charge⟩

/-- A scope is opened with a full budget. -/
theorem Matches.enter (h : ledger.Matches scope number next) (document : String) :
    ledger.Matches (some { document }) next (next + 1) :=
  ⟨Nat.lt_succ_self next, h.eq_full next (Nat.le_refl next),
    fun n hn => h.eq_full n (Nat.le_of_succ_le hn)⟩

/-- Work in a scope that was opened leaves the budget of the scope at work. -/
theorem Matches.leave (h : ledger.Matches scope number next) (level : Level)
    (document : Option String) (inner : Work) :
    (ledger.chargeAll
      ((inner.calls next document (next + 1)).filter (·.call.isKeptBy level))).Matches scope number
        (next + 1 + inner.scopes.length) := by
  have hlt := h.number_lt
  refine ⟨by omega, ?_, fun n hn => ?_⟩
  · rw [inner.chargeAll_filter_calls level ledger document (by omega) (by omega)]
    exact h.eq_remaining
  · rw [inner.chargeAll_filter_calls level ledger document (by omega) (by omega)]
    exact h.eq_full n (by omega)

/-- The ledger when work begins: the scope at work has number zero, and every
scope that is opened has a budget of its own. -/
def opening (scope : Option Scope) : Ledger
  | 0 => Scope.remaining scope
  | _ + 1 => some Limits.documentEvents

theorem matches_opening (scope : Option Scope) : (opening scope).Matches scope 0 1 := by
  refine ⟨Nat.zero_lt_one, rfl, fun n hn => ?_⟩
  obtain ⟨m, rfl⟩ := Nat.exists_eq_add_of_le' hn
  rfl

end Ledger

namespace Session

variable (s : Session)

def sendAll (events : List Event) : Session := events.foldl send s

/-- The event that a call hands to the channel: its message is cut, and it names
the document of its scope if that is wanted. -/
def eventOf (l : Logged) : Event :=
  (clamp (l.call.event s.clock.now)).naming (if s.journal.nameDocument then l.document else none)

/-- The session after it has handed events to its channel and come to a scope. -/
def forward (scope : Option Scope) (events : List Event) : Session :=
  { s.sendAll events with scope }

theorem sendAll_concat (events : List Event) (e : Event) :
    s.sendAll (events ++ [e]) = (s.sendAll events).send e := by
  rw [sendAll, List.foldl_append]
  rfl

/-- Sending changes nothing but what is behind the channel. -/
theorem send_frame (e : Event) :
    (s.send e).clock = s.clock ∧ (s.send e).journal = s.journal ∧
      (s.send e).channel.map Channel.level = s.channel.map Channel.level := by
  unfold send
  cases hs : s.channel with
  | none => exact ⟨rfl, rfl, congrArg _ hs⟩
  | some c =>
      refine ⟨rfl, rfl, congrArg some ?_⟩
      unfold Channel.send
      split <;> rfl

theorem sendAll_frame (events : List Event) :
    (s.sendAll events).clock = s.clock ∧ (s.sendAll events).journal = s.journal ∧
      (s.sendAll events).channel.map Channel.level = s.channel.map Channel.level := by
  induction events generalizing s with
  | nil => exact ⟨rfl, rfl, rfl⟩
  | cons e events ih =>
      obtain ⟨hclock, hjournal, hlevel⟩ := ih (s.send e)
      obtain ⟨hclock', hjournal', hlevel'⟩ := s.send_frame e
      exact ⟨hclock.trans hclock', hjournal.trans hjournal', hlevel.trans hlevel'⟩

theorem send_forward (scope : Option Scope) (events : List Event) (e : Event) :
    (s.forward scope events).send e = s.forward scope (events ++ [e]) := by
  rw [forward, forward, sendAll_concat]
  obtain ⟨environment, clock, preferences, channel, former, transcript⟩ := s.sendAll events
  cases channel <;> rfl

theorem tag_forward (scope : Option Scope) (events : List Event) (e : Event) :
    (s.forward scope events).tag e =
      e.naming (if s.journal.nameDocument then scope.map (·.document) else none) := by
  have hjournal : (s.forward scope events).journal = s.journal := (s.sendAll_frame events).2.1
  cases scope with
  | none => simp [tag, forward, Event.naming]
  | some scope =>
      have hscope : (s.forward (some scope) events).scope = some scope := rfl
      rw [tag_eq_naming hscope, documentName, hjournal]
      rfl

variable {s}

/-- Logging looks at nothing but the level of the channel. -/
theorem log_of_level {level : Level} (hs : s.channel.map Channel.level = some level) (e : Event) :
    s.log e = if level.admits e.level then
        match charge? s.scope with
        | none => s
        | some scope => { s with scope }.send (s.tag (clamp e))
      else s := by
  obtain ⟨environment, clock, preferences, channel, scope, transcript⟩ := s
  cases channel with
  | none => cases hs
  | some c => cases hs; rfl

theorem charge?_eq_ite (scope : Option Scope) :
    charge? scope =
      if Scope.remaining scope = some 0 then none else some (scope.map (·.charged 1)) := by
  cases scope with
  | none => rfl
  | some scope =>
      simp only [charge?, Scope.charge?, Scope.remaining, Option.map_some, Option.some.injEq,
        Nat.sub_eq_zero_iff_le, ← Nat.not_lt, ite_not]
      split <;> rfl

theorem log_forward {level : Level} (hs : s.channel.map Channel.level = some level)
    (scope : Option Scope) (events : List Event) (e : Event) :
    (s.forward scope events).log e =
      if level.admits e.level = true ∧ Scope.remaining scope ≠ some 0 then
        s.forward (scope.map (·.charged 1)) (events ++ [(clamp e).naming
          (if s.journal.nameDocument then scope.map (·.document) else none)])
      else
        s.forward scope events := by
  have hchannel : (s.forward scope events).channel.map Channel.level = some level :=
    (s.sendAll_frame events).2.2.trans hs
  have hscope : (s.forward scope events).scope = scope := rfl
  rw [log_of_level hchannel, hscope, charge?_eq_ite, tag_forward]
  by_cases hadmits : level.admits e.level = true
  · by_cases hleft : Scope.remaining scope = some 0
    · simp [hadmits, hleft]
    · simp only [hadmits, hleft, if_true, if_false, ne_eq, not_false_iff, and_self]
      exact s.send_forward (scope.map (·.charged 1)) events _
  · simp [hadmits]

theorem make_forward {level : Level} (hs : s.channel.map Channel.level = some level)
    (scope : Option Scope) (events : List Event) (number : Nat) (c : Call) :
    (s.forward scope events).make c =
      if c.isKeptBy level = true ∧ Scope.remaining scope ≠ some 0 then
        s.forward (scope.map (·.charged 1))
          (events ++ [s.eventOf ⟨number, scope.map (·.document), c⟩])
      else
        s.forward scope events := by
  have hclock : (s.forward scope events).clock = s.clock := (s.sendAll_frame events).1
  have hkept : level.admits (c.event s.clock.now).level = c.isKeptBy level := by
    cases c <;> rfl
  rw [make_eq_log, hclock, log_forward hs, hkept]
  rfl

/-- Work in a session hands to the channel what the ledger pays for. -/
theorem perform_forward {level : Level} (hs : s.channel.map Channel.level = some level)
    (work : Work) (scope : Option Scope) (events : List Event) {ledger : Ledger}
    {number next : Nat} (hledger : ledger.Matches scope number next) :
    work.perform (s.forward scope events) =
      s.forward (scope.map (·.charged
          ((work.paid level ledger number (scope.map (·.document)) next).countP
            (·.scope == number))))
        (events ++ (work.paid level ledger number (scope.map (·.document)) next).map s.eventOf) := by
  induction work generalizing scope events ledger number next with
  | done =>
      rw [Work.paid, Work.calls, List.filter_nil, Ledger.spend, List.map_nil, List.append_nil,
        List.countP_nil, Scope.map_charged_zero, Work.perform]
  | call c rest ih =>
      rw [Work.perform, make_forward hs scope events number]
      by_cases hkept : c.isKeptBy level = true
      · rw [Work.paid_call_of_isKeptBy rest ledger number (scope.map (·.document)) next hkept,
          hledger.eq_remaining]
        by_cases hleft : Scope.remaining scope = some 0
        · simp only [hkept, hleft, ne_eq, not_true, and_false, if_false, if_true, List.nil_append]
          exact ih scope events (hledger.charge_of_spent hleft)
        · have hdocument : (scope.map (·.charged 1)).map (·.document) = scope.map (·.document) := by
            cases scope <;> rfl
          simp only [hkept, hleft, ne_eq, not_false_iff, and_self, if_true, if_false]
          rw [ih _ _ hledger.charge, hdocument, Scope.map_charged_add, List.append_assoc,
            List.map_append, List.countP_append]
          simp
      · rw [Work.paid_call_of_not_isKeptBy rest ledger number (scope.map (·.document)) next hkept]
        simp only [hkept, Bool.false_eq_true, false_and, if_false]
        exact ih scope events hledger
  | within document inner rest ihi ihr =>
      have hinner := ihi (some { document }) events (hledger.enter document)
      have hwithin : ((s.forward scope events).within document fun t => ((), inner.perform t)).2 =
          s.forward scope (events ++
            (inner.paid level ledger next (some document) (next + 1)).map s.eventOf) :=
        congrArg (fun t : Session => { t with scope }) hinner
      have hlt := hledger.number_lt
      rw [Work.perform, hwithin, Work.paid_within,
        ihr scope _ (hledger.leave level (some document) inner), List.countP_append,
        inner.countP_paid_eq_zero level ledger (some document) (by omega) (by omega),
        Nat.zero_add, List.map_append, List.append_assoc]

theorem level_eventOf (l : Logged) : (s.eventOf l).level = l.call.level := by
  obtain ⟨scope, document, c⟩ := l
  unfold eventOf
  cases (if s.journal.nameDocument then document else none) <;> cases c <;> rfl

/-- A store behind the channel takes every event that the channel admits. -/
theorem sendAll_store {level : Level} {store : EventStore}
    (hs : s.channel = some ⟨level, none, .store store⟩) {events : List Event}
    (hlevel : ∀ e ∈ events, e.level.rank ≤ level.rank) :
    (s.sendAll events).channel = some ⟨level, none, .store (store.pushAll events)⟩ := by
  induction events generalizing s store with
  | nil => exact hs
  | cons e events ih =>
      have hfirst : Channel.letsThrough level none e = true := by
        simp [Channel.letsThrough, hlevel e List.mem_cons_self]
      have hsend : (s.send e).channel = some ⟨level, none, .store (store.push e)⟩ := by
        simp only [send, hs, Channel.send_store, if_pos hfirst]
      exact ih hsend fun later hlater => hlevel later (List.mem_cons_of_mem e hlater)

end Session

namespace Work

/-- The calls that work in the given scope hands to a channel of the given level. -/
def forwarded (level : Level) (scope : Option Scope) (work : Work) : List Logged :=
  work.paid level (.opening scope) 0 (scope.map (·.document)) 1

theorem filter_paid {work : Work} {level : Level} {ledger : Ledger} {scope next n : Nat}
    {document name : Option String} {direct : List Call}
    (hcalls : (work.calls scope document next).filter (·.scope == n) =
      direct.map (⟨n, name, ·⟩)) :
    (work.paid level ledger scope document next).filter (·.scope == n) =
      (Ledger.upTo (ledger n) (direct.filter (·.isKeptBy level))).map (⟨n, name, ·⟩) := by
  have hswap : ((work.calls scope document next).filter (·.call.isKeptBy level)).filter
      (·.scope == n) = (direct.filter (·.isKeptBy level)).map (⟨n, name, ·⟩) := by
    rw [List.filter_comm, hcalls, List.filter_map]
    rfl
  rw [paid, Ledger.filter_spend, hswap, Ledger.upTo_map]

end Work

namespace Session

/-- What becomes of the calls of a piece of work in a session whose channel has
the given level. -/
structure Budgeted (s : Session) (level : Level) (work : Work) : Prop where
  /-- The forwarded calls are handed to the channel, and nothing else happens; the
  scope at work is the former one, charged with the calls made in it. -/
  perform_eq : work.perform s =
    { s.sendAll ((work.forwarded level s.scope).map s.eventOf) with
      scope := s.scope.map
        (·.charged ((work.forwarded level s.scope).countP (·.scope == 0))) }
  /-- They are forwarded in the order in which they are made. -/
  sublist : (work.forwarded level s.scope).Sublist
    (work.calls 0 (s.scope.map (·.document)) 1)
  /-- Every scope that the work opens forwards the first calls made directly in it
  that the channel keeps. -/
  inside : ∀ n document body, work.scopes[n]? = some (document, body) →
    (work.forwarded level s.scope).filter (·.scope == n + 1) =
      ((body.direct.filter (·.isKeptBy level)).take Limits.documentEvents).map
        (⟨n + 1, some document, ·⟩)
  /-- In the scope at work, this goes as far as its budget lasts. -/
  around : ∀ scope, s.scope = some scope →
    (work.forwarded level s.scope).filter (·.scope == 0) =
      ((work.direct.filter (·.isKeptBy level)).take
        (Limits.documentEvents - scope.logged)).map (⟨0, some scope.document, ·⟩)
  /-- Outside of any scope there is no limit. -/
  outside : s.scope = none →
    (work.forwarded level s.scope).filter (·.scope == 0) =
      (work.direct.filter (·.isKeptBy level)).map (⟨0, none, ·⟩)
  /-- Work in a scope of its own leaves the scope at work as it was. -/
  restored : ∀ document, ((Work.within document work .done).perform s).scope = s.scope
  /-- A store right behind the channel takes all that is forwarded. -/
  stored : ∀ store, s.channel = some ⟨level, none, .store store⟩ →
    (work.perform s).channel = some ⟨level, none,
      .store (store.pushAll ((work.forwarded level s.scope).map s.eventOf))⟩

/-- Every scope has a budget of its own, which only the calls made directly in it
and kept by the channel are charged to. -/
theorem budgeted_of_channel {s : Session} {c : Channel} (hs : s.channel = some c) (work : Work) :
    s.Budgeted c.level work := by
  have hlevel : s.channel.map Channel.level = some c.level := by rw [hs, Option.map_some]
  have hperform := perform_forward hlevel work s.scope [] (Ledger.matches_opening s.scope)
  have hkept : (work.forwarded c.level s.scope).Sublist
      ((work.calls 0 (s.scope.map (·.document)) 1).filter (·.call.isKeptBy c.level)) :=
    work.paid_sublist c.level _ 0 _ 1
  have hown : (work.forwarded c.level s.scope).filter (·.scope == 0) =
      (Ledger.upTo (Scope.remaining s.scope) (work.direct.filter (·.isKeptBy c.level))).map
        (⟨0, s.scope.map (·.document), ·⟩) :=
    Work.filter_paid (work.filter_calls_scope (s.scope.map (·.document)) Nat.zero_lt_one)
  refine ⟨hperform, hkept.trans List.filter_sublist, ?_, ?_, ?_, fun document => rfl, ?_⟩
  · intro n document body hn
    have hcalls := work.filter_calls_getElem (s.scope.map (·.document)) Nat.zero_lt_one hn
    rw [Nat.add_comm 1 n] at hcalls
    exact Work.filter_paid hcalls
  · intro scope hscope
    rw [hown, hscope]
    rfl
  · intro hscope
    rw [hown, hscope]
    rfl
  · intro store hstore
    refine (congrArg Session.channel hperform).trans (sendAll_store hstore fun e he => ?_)
    obtain ⟨l, hl, rfl⟩ := List.mem_map.1 he
    rw [level_eventOf]
    exact of_decide_eq_true (List.mem_filter.1 (hkept.subset hl)).2

/-- A scope spends its budget, opens a scope that has one of its own, and is still
without budget afterwards. -/
theorem budgeted_spent :
    ∃ (tick : Call) (body : Work), body.direct.length = 1002 ∧
      ({ channel := some (.toStore .info) } : Session).Budgeted .info
        (.within "outer" body .done) ∧
      ((Work.within "outer" body .done).forwarded .info none).filter (·.scope == 1) =
        List.replicate 1000 ⟨1, some "outer", tick⟩ ∧
      ((Work.within "outer" body .done).forwarded .info none).filter (·.scope == 2) =
        [⟨2, some "inner", tick⟩] := by
  have hdirect (calls : List Call) (rest : Work) :
      (calls.foldr .call rest).direct = calls ++ rest.direct := by
    induction calls with
    | nil => rfl
    | cons c calls ih => exact congrArg (c :: ·) ih
  have hscopes (calls : List Call) (rest : Work) :
      (calls.foldr .call rest).scopes = rest.scopes := by
    induction calls with
    | nil => rfl
    | cons c calls ih => exact ih
  let tick : Call := .information "tick" []
  let inner : Work := .call (.detail "tock" []) (.call tick .done)
  let body : Work :=
    (List.replicate 1001 tick).foldr .call (.within "inner" inner (.call tick .done))
  have h := budgeted_of_channel (s := { channel := some (.toStore .info) }) rfl
    (.within "outer" body .done)
  have hbody : body.direct = List.replicate 1002 tick :=
    (hdirect _ _).trans List.replicate_succ'.symm
  refine ⟨tick, body, by rw [hbody, List.length_replicate], h, ?_, ?_⟩
  · refine (h.inside 0 "outer" body rfl).trans ?_
    rw [hbody, List.filter_replicate_of_pos rfl, List.take_replicate, List.map_replicate]
    rfl
  · have hinner : (Work.within "outer" body .done).scopes[1]? = some ("inner", inner) := by
      simp only [Work.scopes, List.cons_append, List.getElem?_cons_succ, body, hscopes]
      rfl
    exact h.inside 1 "inner" inner hinner

end Session

end UniformBlock
