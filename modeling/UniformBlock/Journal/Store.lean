import UniformBlock.Journal.Event
import UniformBlock.Limits

/-!
# The event store

An `EventStore` keeps the latest events, at most `Limits.storedEvents` of them;
when it is full, new events take the place of the oldest. It is a queue of two
lists, so that both ends are at hand; `toList` is the view from which everything
about it is said.
-/

namespace UniformBlock

/-- The latest events. The older ones stand in order in `older`, the newer ones
in reverse in `newer`. -/
structure EventStore where
  older : List Event
  newer : List Event
  count : Nat
  count_eq : count = older.length + newer.length
  count_le : count ≤ Limits.storedEvents

namespace EventStore

/-- The events, the oldest first. -/
def toList (s : EventStore) : List Event := s.older ++ s.newer.reverse

def empty : EventStore := ⟨[], [], 0, rfl, Nat.zero_le _⟩

instance : Inhabited EventStore := ⟨empty⟩

def dropOldest (s : EventStore) : EventStore :=
  match hs : s.older with
  | _ :: older =>
    { older := older
      newer := s.newer
      count := s.count - 1
      count_eq := by
        have hcount := s.count_eq
        rw [hs, List.length_cons] at hcount
        omega
      count_le := Nat.le_trans (Nat.sub_le _ _) s.count_le }
  | [] =>
    { older := s.newer.reverse.tail
      newer := []
      count := s.count - 1
      count_eq := by
        have hcount := s.count_eq
        rw [hs] at hcount
        simp only [List.length_nil, List.length_tail, List.length_reverse] at hcount ⊢
        omega
      count_le := Nat.le_trans (Nat.sub_le _ _) s.count_le }

theorem count_dropOldest (s : EventStore) : s.dropOldest.count = s.count - 1 := by
  unfold dropOldest
  split <;> rfl

/-- Remove the oldest events. -/
def drain (s : EventStore) : Nat → EventStore
  | 0 => s
  | n + 1 => s.dropOldest.drain n

theorem count_drain (s : EventStore) (n : Nat) : (s.drain n).count = s.count - n := by
  induction n generalizing s with
  | zero => rfl
  | succ n ih => rw [drain, ih, count_dropOldest, Nat.sub_sub, Nat.add_comm 1]

/-- Add an event as the newest, where there is room. -/
def add (s : EventStore) (e : Event) (hroom : s.count < Limits.storedEvents) : EventStore where
  older := s.older
  newer := e :: s.newer
  count := s.count + 1
  count_eq := by
    have hcount := s.count_eq
    simp only [List.length_cons]
    omega
  count_le := hroom

theorem count_drain_lt (s : EventStore) :
    (s.drain (s.count - Limits.storedEvents + 1)).count < Limits.storedEvents := by
  have hle := s.count_le
  have hroom : 0 < Limits.storedEvents := by decide
  rw [count_drain]
  omega

/-- Add an event as the newest. A store without room for it first gives up as many of its
oldest events as are too many. -/
def push (s : EventStore) (e : Event) : EventStore :=
  if hroom : s.count < Limits.storedEvents then s.add e hroom
  else (s.drain (s.count - Limits.storedEvents + 1)).add e s.count_drain_lt

@[simp] theorem toList_empty : empty.toList = [] := rfl

theorem length_toList (s : EventStore) : s.toList.length = s.count := by
  rw [s.count_eq, toList, List.length_append, List.length_reverse]

@[simp] theorem toList_add (s : EventStore) (e : Event) (hroom : s.count < Limits.storedEvents) :
    (s.add e hroom).toList = s.toList ++ [e] := by
  simp [toList, add]

@[simp] theorem toList_dropOldest (s : EventStore) : s.dropOldest.toList = s.toList.tail := by
  unfold dropOldest
  split
  · rename_i e older hs
    simp [toList, hs]
  · rename_i hs
    simp [toList, hs]

@[simp] theorem toList_drain (s : EventStore) (n : Nat) :
    (s.drain n).toList = s.toList.drop n := by
  induction n generalizing s with
  | zero => rfl
  | succ n ih => rw [drain, ih, toList_dropOldest, List.drop_tail]

/-- A store gains the event, and gives up the oldest ones for which there is no room. -/
theorem toList_push (s : EventStore) (e : Event) :
    (s.push e).toList = s.toList.drop (s.toList.length + 1 - Limits.storedEvents) ++ [e] := by
  rw [length_toList]
  unfold push
  split
  · rename_i hroom
    rw [toList_add, Nat.sub_eq_zero_of_le hroom, List.drop_zero]
  · rename_i hfull
    rw [toList_add, toList_drain, Nat.sub_add_comm (Nat.le_of_not_lt hfull)]

def errors (s : EventStore) : List Event := s.toList.filter (·.isError)

def withCode (s : EventStore) (code : Code) : List Event := s.toList.filter (·.code == code)

def forDocument (s : EventStore) (document : String) : List Event :=
  s.toList.filter (·.isFor document)

def inCategory (s : EventStore) (category : String) : List Event :=
  s.toList.filter (·.code.category == category)

def hasError (s : EventStore) (code : Code) : Bool :=
  s.toList.any fun e => e.isError && e.code == code

def hasSuccess (s : EventStore) (code : Code) : Bool :=
  s.toList.any fun e => e.isInfo && e.code == code

end EventStore

end UniformBlock
