import UniformBlock.Limits
import UniformBlock.Value

/-!
# Argument lists

An argument list is a parenthesised list of `name = value` pairs. The state of
reading one is an `ArgumentList`: it is ongoing until its closing parenthesis
has been read, and an ongoing list remembers whether an element has been read
yet and whether an element was flagged as unknown. A flag is final: from then on
every attempt to go on reports the unknown element.

`advance` moves to the next element and keeps the list, whatever comes of it;
`next` is the same for a reader, which gives up at a fault. `flag` marks the current
element, and `finish` ends the list.
-/

namespace UniformBlock

open Ascii

/-- The state of reading an argument list. -/
inductive ArgumentList where
  | ongoing (first flagged : Bool)
  | closed
deriving DecidableEq, Repr

namespace ArgumentList

def begin : Reading ArgumentList := do
  Reading.expect openParen .listUnopened
  pure (.ongoing true false)

/-- Move to the next element: the answer, the list and the head afterwards. The answer
says whether there is an element; it is `false` once the closing parenthesis has been
read. On a fault the list stays as it was. -/
def advance : ArgumentList → Head → Except Fault Bool × ArgumentList × Head
  | closed, h => (.ok false, closed, h)
  | ongoing first flagged, h =>
    if flagged then
      (.error ⟨h.pos, .argumentUnknown⟩, ongoing first flagged, h)
    else
      match h.skipBlanks.eat? closeParen with
      | some k => (.ok false, closed, k)
      | none =>
        if first then
          (.ok true, ongoing false flagged, h.skipBlanks)
        else
          match h.skipBlanks.eat? comma with
          | some k => (.ok true, ongoing false flagged, k.skipBlanks)
          | none =>
            (.error ⟨h.skipBlanks.pos, .listUnseparated⟩, ongoing first flagged, h.skipBlanks)

/-- Move to the next element; on a fault the list is given up. -/
def next (list : ArgumentList) : Reading (Bool × ArgumentList) := fun h =>
  match list.advance h with
  | (.ok found, later, k) => (.ok (found, later), k)
  | (.error e, _, k) => (.error e, k)

/-- Flag the current element as unknown. -/
def flag : ArgumentList → ArgumentList
  | closed => closed
  | ongoing first _ => ongoing first true

/-- End the list; a flagged list cannot end. -/
def finish : ArgumentList → Reading Unit
  | ongoing _ true => Reading.fail .listFlagged
  | _ => pure ()

/-- The number of turns a list has left when nothing more is read: one, unless
it is closed or flagged. -/
def turns : ArgumentList → Nat
  | ongoing _ false => 1
  | _ => 0

theorem next_closed (h : Head) : closed.next h = (.ok (false, closed), h) := rfl

theorem next_flagged (first : Bool) (h : Head) :
    (ongoing first true).next h = (.error ⟨h.pos, .argumentUnknown⟩, h) := rfl

theorem next_ongoing (first : Bool) (h : Head) :
    (ongoing first false).next h =
      match h.skipBlanks.eat? closeParen with
      | some k => (.ok (false, closed), k)
      | none =>
        if first then
          (.ok (true, ongoing false false), h.skipBlanks)
        else
          match h.skipBlanks.eat? comma with
          | some k => (.ok (true, ongoing false false), k.skipBlanks)
          | none => (.error ⟨h.skipBlanks.pos, .listUnseparated⟩, h.skipBlanks) := by
  simp only [next, advance, Bool.false_eq_true, if_false]
  cases h.skipBlanks.eat? closeParen with
  | some k => rfl
  | none =>
    cases first with
    | true => rfl
    | false => cases h.skipBlanks.eat? comma <;> rfl

theorem forward_begin : begin.Forward :=
  (Reading.forward_expect _ _).bind fun _ => Reading.forward_pure _

theorem forward_next (list : ArgumentList) : list.next.Forward := by
  intro h
  cases list with
  | closed => exact Head.Reaches.refl h
  | ongoing first flagged =>
    cases flagged with
    | true => exact Head.Reaches.refl h
    | false =>
      rw [next_ongoing]
      split
      · rename_i k hk
        exact (Head.reaches_skipBlanks h).trans (Head.reaches_of_eat? hk)
      · split
        · exact Head.reaches_skipBlanks h
        · split
          · rename_i k hk
            exact ((Head.reaches_skipBlanks h).trans (Head.reaches_of_eat? hk)).trans
              (Head.reaches_skipBlanks k)
          · exact Head.reaches_skipBlanks h

/-- Where there is a next element, the list was ongoing without a flag and still
is. -/
theorem turns_of_next {list later : ArgumentList} {h k : Head}
    (hn : list.next h = (.ok (true, later), k)) : list.turns = 1 ∧ later.turns = 1 := by
  cases list with
  | closed => simp [next_closed] at hn
  | ongoing first flagged =>
    cases flagged with
    | true => simp [next_flagged] at hn
    | false =>
      rw [next_ongoing] at hn
      refine ⟨rfl, ?_⟩
      split at hn
      · simp at hn
      · split at hn
        · simp only [Prod.mk.injEq, Except.ok.injEq, true_and] at hn
          rw [← hn.1]
          rfl
        · split at hn
          · simp only [Prod.mk.injEq, Except.ok.injEq, true_and] at hn
            rw [← hn.1]
            rfl
          · simp at hn

@[simp] theorem turns_flag (list : ArgumentList) : list.flag.turns = 0 := by
  cases list <;> rfl

end ArgumentList

namespace Value

variable {α : Type}

def afterName (name : String) (value : Reading α) : Reading α := do
  Reading.skipBlanks
  Reading.expect equals (.argumentWithoutEquals name)
  Reading.skipBlanks
  value

/-- Read an argument with the given name; `none` when another name stands here.
Once the name is there, whatever is wrong after it is a fault. -/
def argument (name : String) (value : Reading α) : Reading (Option α) := fun h =>
  match h.keyword? name with
  | none => (.ok none, h)
  | some k =>
    match afterName name value k with
    | (.ok a, l) => (.ok (some a), l)
    | (.error e, l) => (.error e, l)

/-- Read a string of at most the given number of bytes, if a bound is given. A
longer one is reported where it begins. -/
def boundedString (max : Option Nat) : Reading String := fun h =>
  match string h with
  | (.error e, k) => (.error e, k)
  | (.ok s, k) =>
    match max with
    | none => (.ok s, k)
    | some bound =>
      if s.utf8ByteSize ≤ bound then (.ok s, k)
      else (.error ⟨h.pos, .stringTooLong s.utf8ByteSize bound⟩, k)

def stringArgument (name : String) (max : Option Nat) : Reading (Option String) :=
  argument name (boundedString max)

theorem forward_afterName (name : String) {value : Reading α} (hv : value.Forward) :
    (afterName name value).Forward :=
  Reading.forward_skipBlanks.bind fun _ =>
    (Reading.forward_expect _ _).bind fun _ => Reading.forward_skipBlanks.bind fun _ => hv

theorem forward_argument (name : String) {value : Reading α} (hv : value.Forward) :
    (argument name value).Forward := by
  intro h
  unfold argument
  split
  · exact Head.Reaches.refl h
  · rename_i k hk
    have hafter := forward_afterName name hv k
    split <;>
      (rename_i hl
       rw [hl] at hafter
       exact (Head.reaches_of_keyword? hk).trans hafter)

theorem eq_of_argument_none {name : String} {value : Reading α} {h k : Head}
    (ha : argument name value h = (.ok none, k)) : k = h := by
  unfold argument at ha
  split at ha
  · simp only [Prod.mk.injEq, true_and] at ha
    exact ha.symm
  · split at ha <;> simp at ha

/-- An argument that was read leaves less to read. -/
theorem length_lt_of_argument_some {name : String} {value : Reading α} {h k : Head} {a : α}
    (hname : 0 < (Utf8.bytes name).length) (hv : value.Forward)
    (ha : argument name value h = (.ok (some a), k)) : k.rest.length < h.rest.length := by
  unfold argument at ha
  split at ha
  · simp at ha
  · rename_i l hl
    have hafter := (forward_afterName name hv l).length_le
    have hlt := Head.length_lt_of_keyword? hname hl
    split at ha
    · rename_i b m hm
      simp only [Prod.mk.injEq] at ha
      rw [hm, ha.2] at hafter
      exact Nat.lt_of_le_of_lt hafter hlt
    · simp at ha

theorem forward_boundedString (max : Option Nat) : (boundedString max).Forward := by
  intro h
  have hs := forward_string h
  unfold boundedString
  split
  · rename_i hk
    rw [hk] at hs
    exact hs
  · rename_i hk
    rw [hk] at hs
    split
    · exact hs
    · split <;> exact hs

end Value

end UniformBlock
