import UniformBlock.Proofs.Argument

/-!
# The protocol of argument lists

A list that has begun is used by calls that move on or flag an element, in any
order, and between two calls the head may be moved to any place: by the reader of a
value, by hand, or by another list that is used with the same head. What the list
answers depends on the calls alone.

A call that moves on does one of six things (`Advances`). From them it follows what
every run keeps: a closed list stays closed, a flagged one stays flagged, and an
open one remembers whether it has had an element and whether it was flagged
(`Use.Protocol`).
-/

namespace UniformBlock

open Ascii Grammar Reading

namespace ArgumentList

/-- What moving on can do: the answer, the list and the head afterwards. -/
inductive Advances : ArgumentList → Head → Except Fault Bool × ArgumentList × Head → Prop
  | closed {h : Head} : Advances .closed h (.ok false, .closed, h)
  | flagged {first : Bool} {h : Head} :
      Advances (.ongoing first true) h
        (.error ⟨h.pos, .argumentUnknown⟩, .ongoing first true, h)
  | close {first : Bool} {h k : Head} {b : List UInt8} (hb : Blanks b)
      (hk : h.Takes (b ++ [closeParen]) k) :
      Advances (.ongoing first false) h (.ok false, .closed, k)
  | first {h k : Head} {b : List UInt8} (hb : Blanks b) (hk : h.Takes b k) :
      Advances (.ongoing true false) h (.ok true, .ongoing false false, k)
  | later {h k : Head} {b c : List UInt8} (hb : Blanks b) (hc : Blanks c)
      (hk : h.Takes (b ++ comma :: c) k) :
      Advances (.ongoing false false) h (.ok true, .ongoing false false, k)
  | unseparated {h k : Head} {b : List UInt8} (hb : Blanks b) (hk : h.Takes b k) :
      Advances (.ongoing false false) h
        (.error ⟨k.pos, .listUnseparated⟩, .ongoing false false, k)

variable {list later : ArgumentList} {h k : Head}

theorem advances (list : ArgumentList) (h : Head) : Advances list h (list.advance h) := by
  have hblanks := Head.takes_skipWhile h isBlank
  have hrun := run_takeWhile isBlank h.rest
  cases list with
  | closed => exact .closed
  | ongoing first flagged =>
      cases flagged with
      | true => exact .flagged
      | false =>
          simp only [advance, Bool.false_eq_true, if_false]
          cases hclose : h.skipBlanks.eat? closeParen with
          | some k => exact .close hrun (hblanks.append (Head.eat?_eq_some_iff.1 hclose))
          | none =>
              cases first with
              | true => exact .first hrun hblanks
              | false =>
                  cases hcomma : h.skipBlanks.eat? comma with
                  | none => exact .unseparated hrun hblanks
                  | some k =>
                      exact .later hrun (run_takeWhile isBlank k.rest) (hblanks.append
                        ((Head.eat?_eq_some_iff.1 hcomma).append (Head.takes_skipWhile k isBlank)))

/-- Only the closing parenthesis, or a list that is closed already, gives the answer
that there is no further element. -/
theorem Advances.list_of_false (ha : Advances list h (.ok false, later, k)) :
    later = .closed := by
  cases ha with
  | closed => rfl
  | close hb hk => rfl

/-- A list that does not move on is kept. -/
theorem Advances.list_of_error {e : Fault} (ha : Advances list h (.error e, later, k)) :
    later = list := by
  cases ha with
  | flagged => rfl
  | unseparated hb hk => rfl

/-- In front of an element there are blanks, and a comma unless it is the first. -/
theorem Advances.takes_of_true (ha : Advances list h (.ok true, later, k)) :
    ∃ first b, list = .ongoing first false ∧ Blanks b ∧
      (first = true ∧ h.Takes b k ∨
        first = false ∧ ∃ c, Blanks c ∧ h.Takes (b ++ comma :: c) k) := by
  cases ha with
  | first hb hk => exact ⟨true, _, rfl, hb, .inl ⟨rfl, hk⟩⟩
  | later hb hc hk => exact ⟨false, _, rfl, hb, .inr ⟨rfl, _, hc, hk⟩⟩

/-- A list begins open, without an element and without a flag. -/
theorem begin_eq_ok_iff :
    begin h = (.ok list, k) ↔ list = .ongoing true false ∧ h.Takes [openParen] k := by
  rw [begin, bind_eq_ok_iff]
  constructor
  · rintro ⟨_, l, hl, hr⟩
    obtain ⟨rfl, rfl⟩ := pure_eq_ok_iff.1 hr
    exact ⟨rfl, expect_eq_ok_iff.1 hl⟩
  · rintro ⟨rfl, hk⟩
    exact ⟨(), k, expect_eq_ok_iff.2 hk, rfl⟩

/-- A list in use, and the head that it is used with. -/
structure Use where
  list : ArgumentList
  head : Head

/-- What is done while a list is in use. -/
inductive Action where
  | next
  | flag
  /-- The head is moved by something else, such as another list. -/
  | move (head : Head)

namespace Use

/-- The answer of the list when it is asked to move on. -/
def answer (u : Use) : Except Fault Bool := (u.list.advance u.head).1

def perform (u : Use) : Action → Use
  | .next => ⟨(u.list.advance u.head).2.1, (u.list.advance u.head).2.2⟩
  | .flag => ⟨u.list.flag, u.head⟩
  | .move head => ⟨u.list, head⟩

/-- Perform one action after the other. -/
def run (u : Use) (actions : List Action) : Use := actions.foldl perform u

/-- In the course of a run, an action was performed in a state as described. -/
def Happened (u : Use) (actions : List Action) (p : Use → Action → Prop) : Prop :=
  ∃ before a after, actions = before ++ a :: after ∧ p (u.run before) a

/-- The list has moved on to an element. -/
def HadElement (u : Use) (actions : List Action) : Prop :=
  u.Happened actions fun v a => a = .next ∧ v.answer = .ok true

/-- The list was flagged while it was open. -/
def WasFlagged (u : Use) (actions : List Action) : Prop :=
  u.Happened actions fun v a => a = .flag ∧ v.list ≠ .closed

variable {u : Use} {actions : List Action}

theorem run_append (u : Use) (before after : List Action) :
    u.run (before ++ after) = (u.run before).run after := List.foldl_append

theorem run_concat (u : Use) (actions : List Action) (a : Action) :
    u.run (actions ++ [a]) = (u.run actions).perform a := by
  rw [run_append]
  rfl

theorem happened_nil {p : Use → Action → Prop} : ¬ u.Happened [] p := by
  rintro ⟨before, a, after, h, -⟩
  simp at h

/-- What happened in a run happened before its last action or is that action. -/
theorem happened_concat_iff {a : Action} {p : Use → Action → Prop} :
    u.Happened (actions ++ [a]) p ↔ u.Happened actions p ∨ p (u.run actions) a := by
  constructor
  · rintro ⟨before, b, after, h, hp⟩
    cases after using List.reverseRecOn with
    | nil =>
        obtain ⟨rfl, hab⟩ := List.append_inj' h rfl
        obtain rfl : a = b := List.singleton_inj.1 hab
        exact .inr hp
    | append_singleton after c =>
        rw [← List.cons_append, ← List.append_assoc] at h
        exact .inl ⟨before, b, after, (List.append_inj' h rfl).1, hp⟩
  · rintro (⟨before, b, after, rfl, hp⟩ | hp)
    · exact ⟨before, b, after ++ [a], by simp, hp⟩
    · exact ⟨actions, a, [], rfl, hp⟩

theorem hadElement_concat_iff (u : Use) (actions : List Action) (a : Action) :
    u.HadElement (actions ++ [a]) ↔
      u.HadElement actions ∨ a = .next ∧ (u.run actions).answer = .ok true :=
  happened_concat_iff

theorem wasFlagged_concat_iff (u : Use) (actions : List Action) (a : Action) :
    u.WasFlagged (actions ++ [a]) ↔
      u.WasFlagged actions ∨ a = .flag ∧ (u.run actions).list ≠ .closed :=
  happened_concat_iff

/-! ## What every run keeps -/

/-- A closed list stays closed. -/
theorem list_run_of_closed (hu : u.list = .closed) (actions : List Action) :
    (u.run actions).list = .closed := by
  induction actions using List.reverseRecOn with
  | nil => exact hu
  | append_singleton actions a ih =>
      rw [run_concat]
      cases a with
      | next => simp only [perform, ih, advance]
      | flag => simp only [perform, ih, ArgumentList.flag]
      | move head => exact ih

/-- A flagged list stays as it is. -/
theorem list_run_of_flagged {first : Bool} (hu : u.list = .ongoing first true)
    (actions : List Action) : (u.run actions).list = .ongoing first true := by
  induction actions using List.reverseRecOn with
  | nil => exact hu
  | append_singleton actions a ih =>
      rw [run_concat]
      cases a with
      | next => simp only [perform, ih, advance, if_true]
      | flag => simp only [perform, ih, ArgumentList.flag]
      | move head => exact ih

/-- What a list remembers of a run: while it is open, whether it had an element and
whether it was flagged. Once it is closed, it never was flagged. -/
def Remembers (u : Use) (actions : List Action) : ArgumentList → Prop
  | .closed => ¬ u.WasFlagged actions
  | .ongoing first flagged =>
    (first = true ↔ ¬ u.HadElement actions) ∧ (flagged = true ↔ u.WasFlagged actions)

theorem Remembers.flagged_iff (hr : u.Remembers actions list) :
    (∃ first, list = .ongoing first true) ↔ u.WasFlagged actions := by
  cases list with
  | closed => simpa [Remembers] using hr
  | ongoing first flagged => simpa using hr.2

theorem remembers_next (hr : u.Remembers actions (u.run actions).list) :
    u.Remembers (actions ++ [.next]) ((u.run actions).perform .next).list := by
  have hadvances := advances (u.run actions).list (u.run actions).head
  have helement := hadElement_concat_iff u actions .next
  have hflag := wasFlagged_concat_iff u actions .next
  rw [answer] at helement
  rw [perform]
  generalize (u.run actions).list.advance (u.run actions).head = outcome at hadvances helement ⊢
  generalize (u.run actions).list = list at hadvances hr hflag
  cases hadvances with
  | closed => simpa [Remembers, hflag] using hr
  | flagged => simpa [Remembers, helement, hflag] using hr
  | close hb hk => simpa [Remembers, hflag] using hr.2
  | first hb hk => simpa [Remembers, helement, hflag] using hr.2
  | later hb hc hk => simpa [Remembers, helement, hflag] using hr.2
  | unseparated hb hk => simpa [Remembers, helement, hflag] using hr

theorem remembers_flag (hr : u.Remembers actions (u.run actions).list) :
    u.Remembers (actions ++ [.flag]) ((u.run actions).perform .flag).list := by
  have helement := hadElement_concat_iff u actions .flag
  have hflag := wasFlagged_concat_iff u actions .flag
  rw [perform]
  generalize (u.run actions).list = list at hr hflag
  cases list with
  | closed => simpa [Remembers, hflag, ArgumentList.flag] using hr
  | ongoing first flagged => simpa [Remembers, helement, hflag, ArgumentList.flag] using hr.1

theorem remembers_move (hr : u.Remembers actions (u.run actions).list) (head : Head) :
    u.Remembers (actions ++ [.move head]) ((u.run actions).perform (.move head)).list := by
  have helement := hadElement_concat_iff u actions (.move head)
  have hflag := wasFlagged_concat_iff u actions (.move head)
  rw [perform]
  generalize (u.run actions).list = list at hr hflag
  cases list with
  | closed => simpa [Remembers, hflag] using hr
  | ongoing first flagged => simpa [Remembers, helement, hflag] using hr

theorem remembers_run (hu : u.list = .ongoing true false) (actions : List Action) :
    u.Remembers actions (u.run actions).list := by
  -- on the number of actions, from the end: what an action does depends on the run before it
  induction actions using List.reverseRecOn with
  | nil =>
      rw [show (u.run []).list = _ from hu]
      exact ⟨iff_of_true rfl happened_nil, iff_of_false Bool.false_ne_true happened_nil⟩
  | append_singleton actions a ih =>
      rw [run_concat]
      cases a with
      | next => exact remembers_next ih
      | flag => exact remembers_flag ih
      | move head => exact remembers_move ih head

/-! ## What a call does -/

/-- Exactly the flagged lists cannot end. -/
theorem finish_eq_error_iff {e : Fault} :
    list.finish h = (.error e, k) ↔
      ∃ first, list = .ongoing first true ∧ e = ⟨h.pos, .listFlagged⟩ ∧ k = h := by
  match list with
  | .closed => simp [finish]
  | .ongoing first false => simp [finish]
  | .ongoing first true => simp [finish, Reading.fail, eq_comm]

theorem calls_of_closed (hu : u.list = .closed) :
    u.answer = .ok false ∧ u.perform .next = u ∧ u.perform .flag = u ∧
      u.list.finish u.head = (.ok (), u.head) := by
  obtain ⟨list, head⟩ := u
  obtain rfl : list = .closed := hu
  exact ⟨rfl, rfl, rfl, rfl⟩

theorem calls_of_flagged {first : Bool} (hu : u.list = .ongoing first true) :
    u.answer = .error ⟨u.head.pos, .argumentUnknown⟩ ∧ u.perform .next = u ∧
      u.list.finish u.head = (.error ⟨u.head.pos, .listFlagged⟩, u.head) := by
  obtain ⟨list, head⟩ := u
  obtain rfl : list = .ongoing first true := hu
  exact ⟨rfl, rfl, rfl⟩

theorem exists_flagged_of_ne_closed (hu : u.list ≠ .closed) :
    ∃ first, (u.perform .flag).list = .ongoing first true := by
  obtain ⟨list, head⟩ := u
  cases list with
  | closed => exact absurd rfl hu
  | ongoing first flagged => exact ⟨first, rfl⟩

theorem advances_next (u : Use) :
    Advances u.list u.head (u.answer, (u.perform .next).list, (u.perform .next).head) :=
  advances u.list u.head

theorem list_perform_of_answer_false (hu : u.answer = .ok false) :
    (u.perform .next).list = .closed :=
  (hu ▸ u.advances_next).list_of_false

theorem list_perform_of_answer_error {e : Fault} (hu : u.answer = .error e) :
    (u.perform .next).list = u.list :=
  (hu ▸ u.advances_next).list_of_error

/-- A reader that gives up at a fault is answered in the same way. -/
theorem next_eq_answer (u : Use) :
    u.list.next u.head =
      match u.answer with
      | .ok found => (.ok (found, (u.perform .next).list), (u.perform .next).head)
      | .error e => (.error e, (u.perform .next).head) := by
  rw [next, answer, perform]
  obtain ⟨found | e, list, head⟩ := u.list.advance u.head <;> rfl

/-- The calls on a list, in every run from its beginning. -/
structure Protocol (u : Use) : Prop where
  /-- Once an open list was flagged, it refuses to move on and to end. -/
  sticky : ∀ before after, (u.run before).list ≠ .closed →
    let v := u.run (before ++ .flag :: after)
    v.answer = .error ⟨v.head.pos, .argumentUnknown⟩ ∧ v.perform .next = v ∧
      v.list.finish v.head = (.error ⟨v.head.pos, .listFlagged⟩, v.head)
  /-- Once a list has said that there is no further element, nothing changes it. -/
  final : ∀ before after, (u.run before).answer = .ok false →
    let v := u.run (before ++ .next :: after)
    v.list = .closed ∧ v.answer = .ok false ∧ v.perform .next = v ∧ v.perform .flag = v ∧
      v.list.finish v.head = (.ok (), v.head)
  finish_iff : ∀ actions,
    (∃ e k, (u.run actions).list.finish (u.run actions).head = (.error e, k)) ↔
      u.WasFlagged actions
  first_iff : ∀ actions first flagged, (u.run actions).list = .ongoing first flagged →
    (first = true ↔ ¬ u.HadElement actions)
  /-- In front of the first element there are only blanks. -/
  unseparated : ∀ actions, (u.run actions).answer = .ok true → ¬ u.HadElement actions →
    ∃ b, Blanks b ∧ (u.run actions).head.Takes b ((u.run actions).perform .next).head
  /-- In front of every other element there is one comma among the blanks. -/
  separated : ∀ actions, (u.run actions).answer = .ok true → u.HadElement actions →
    ∃ b c, Blanks b ∧ Blanks c ∧
      (u.run actions).head.Takes (b ++ comma :: c) ((u.run actions).perform .next).head
  /-- A list that does not move on is kept. -/
  kept : ∀ actions e, (u.run actions).answer = .error e →
    ((u.run actions).perform .next).list = (u.run actions).list
  /-- The readers of a declaration get the same answers. -/
  next_eq : ∀ actions, (u.run actions).list.next (u.run actions).head =
    match (u.run actions).answer with
    | .ok found =>
      (.ok (found, ((u.run actions).perform .next).list), ((u.run actions).perform .next).head)
    | .error e => (.error e, ((u.run actions).perform .next).head)

/-- Every list follows the protocol from its beginning on. -/
theorem protocol_of_begin (hbegin : begin h = (.ok list, k)) :
    Protocol ⟨list, k⟩ := by
  obtain ⟨rfl, -⟩ := begin_eq_ok_iff.1 hbegin
  generalize hu : (⟨.ongoing true false, k⟩ : Use) = u
  have hremembers := remembers_run (u := u) (by rw [← hu])
  have hfirst {actions : List Action} {first flagged : Bool}
      (hlist : (u.run actions).list = .ongoing first flagged) :
      first = true ↔ ¬ u.HadElement actions := by
    have hopen := hremembers actions
    rw [hlist] at hopen
    exact hopen.1
  refine ⟨fun before after hopen => ?_, fun before after hanswer => ?_, fun actions => ?_,
    fun actions first flagged => hfirst, fun actions hanswer hnone => ?_,
    fun actions hanswer hsome => ?_, fun actions e => list_perform_of_answer_error,
    fun actions => next_eq_answer _⟩
  · obtain ⟨first, hflag⟩ := exists_flagged_of_ne_closed hopen
    rw [List.append_cons, run_append, run_concat]
    exact calls_of_flagged (list_run_of_flagged hflag after)
  · rw [List.append_cons, run_append, run_concat]
    have hclosed := list_run_of_closed (list_perform_of_answer_false hanswer) after
    exact ⟨hclosed, calls_of_closed hclosed⟩
  · simp only [← (hremembers actions).flagged_iff, finish_eq_error_iff]
    constructor
    · rintro ⟨e, k, first, hlist, -⟩
      exact ⟨first, hlist⟩
    · rintro ⟨first, hlist⟩
      exact ⟨_, _, first, hlist, rfl, rfl⟩
  · have hnext := hanswer ▸ advances_next (u.run actions)
    obtain ⟨first, b, hlist, hb, ⟨-, hk⟩ | ⟨hlater, -⟩⟩ := hnext.takes_of_true
    · exact ⟨b, hb, hk⟩
    · rw [(hfirst hlist).2 hnone] at hlater
      cases hlater
  · have hnext := hanswer ▸ advances_next (u.run actions)
    obtain ⟨first, b, hlist, hb, ⟨hyet, -⟩ | ⟨-, c, hc, hk⟩⟩ := hnext.takes_of_true
    · exact absurd hsome ((hfirst hlist).1 hyet)
    · exact ⟨b, c, hb, hc, hk⟩

/-- A list stays flagged while the head is taken on to another list. -/
theorem protocol_sibling :
    let start := Head.start (.ofString "(c=1) (a=2)")
    let v := run ⟨.ongoing true false, start.skip 1⟩ [.next, .flag, .move (start.skip 6)]
    begin start = (.ok (.ongoing true false), start.skip 1) ∧
      v.answer = .error ⟨6, .argumentUnknown⟩ ∧ v.perform .next = v ∧
      v.list.finish v.head = (.error ⟨6, .listFlagged⟩, v.head) := by
  intro start v
  have hbegin : begin start = (.ok (.ongoing true false), start.skip 1) :=
    begin_eq_ok_iff.2 ⟨rfl, Head.takes_skip
      (by decide +kernel : start.rest = [openParen] ++ Utf8.bytes "c=1) (a=2)")⟩
  have hopen : (run ⟨.ongoing true false, start.skip 1⟩ [.next]).list ≠ .closed := by
    decide +kernel
  have hpos : v.head.pos = 6 := by decide +kernel
  have hsticky := (protocol_of_begin hbegin).sticky [.next] [.move (start.skip 6)] hopen
  rw [← hpos]
  exact ⟨hbegin, hsticky⟩

end Use

end ArgumentList

end UniformBlock
