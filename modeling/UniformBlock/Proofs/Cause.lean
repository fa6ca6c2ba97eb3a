import UniformBlock.Proofs.Localisation

/-!
# The causes of faults in arguments

What can be wrong with an argument depends on the type that takes it. A scalar has
one number and a vector a tuple of numbers, so a hint fails in the ways of its form;
a sampler has a path. `ArgumentCause` lists these causes, and every fault of the
reader of arguments is one of them (`readArgument_eq_error`).

That all faults of a reader have causes of some kind (`FailsWith`) is kept by
composition, so it has to be shown for the basic readers only.
-/

namespace UniformBlock

open Ascii Grammar Reading

namespace UniformType

/-- The names of the arguments that a type takes. -/
def argumentNames (t : UniformType) : List String :=
  if t.components?.isSome then ["mean", "scale"]
  else if t.isSampler then ["file"]
  else []

end UniformType

namespace Grammar

/-- What can be wrong with a hint of `n` numbers. -/
def HintCause (n : Nat) : Cause → Prop
  | .notANumber => n = 1
  | .tupleUnopened kind => 2 ≤ n ∧ kind = .float
  | .tupleUnseparated => 2 ≤ n
  | .tupleComponent index kind => 2 ≤ n ∧ 1 ≤ index ∧ index ≤ n ∧ kind = .float
  | .tupleUnclosed kind => 2 ≤ n ∧ kind = .float
  | _ => False

/-- What can be wrong with a path. -/
def PathCause : Cause → Prop
  | .stringUnopened => True
  | .stringUnclosed => True
  | .stringTooLong length max => max = Limits.pathBytes ∧ max < length
  | _ => False

/-- What can be wrong with an argument that a type takes. -/
inductive ArgumentCause (type : UniformType) : Cause → Prop
  | equals {name : String} (hname : name ∈ type.argumentNames) :
      ArgumentCause type (.argumentWithoutEquals name)
  | hint {n : Nat} {cause : Cause} (hn : type.components? = some n) (hcause : HintCause n cause) :
      ArgumentCause type cause
  | path {cause : Cause} (htype : type.isSampler = true) (hcause : PathCause cause) :
      ArgumentCause type cause

/-- What can be wrong with a list of arguments. A type without arguments has no
list but the empty one, so that everything in its list is unknown. -/
inductive MetadataCause (type : UniformType) : Cause → Prop
  | unknown : MetadataCause type .argumentUnknown
  | unseparated (hnames : type.argumentNames ≠ []) : MetadataCause type .listUnseparated
  | argument {cause : Cause} (hnames : type.argumentNames ≠ [])
      (hcause : ArgumentCause type cause) : MetadataCause type cause

end Grammar

namespace Reading

variable {α β : Type} {h k : Head} {e : Fault}

theorem bind_eq_error_iff {r : Reading α} {f : α → Reading β} :
    (r >>= f) h = (.error e, k) ↔
      r h = (.error e, k) ∨ ∃ a l, r h = (.ok a, l) ∧ f a l = (.error e, k) := by
  rw [bind_apply]
  cases hr : r h with
  | mk x l => cases x <;> simp

theorem expect_eq_error_iff {b : UInt8} {cause : Cause} :
    expect b cause h = (.error e, k) ↔
      h.eat? b = none ∧ e = ⟨h.pos, cause⟩ ∧ k = h := by
  unfold expect
  cases h.eat? b with
  | none => simp [eq_comm]
  | some l => simp

/-- Every fault of the reader has a cause of the given kind. -/
def FailsWith (r : Reading α) (P : Cause → Prop) : Prop :=
  ∀ (h k : Head) (e : Fault), r h = (.error e, k) → P e.cause

variable {P Q : Cause → Prop}

theorem failsWith_pure (a : α) : FailsWith (pure a : Reading α) P := by
  intro h k e hr
  simp at hr

theorem failsWith_skipBlanks : FailsWith skipBlanks P := by
  intro h k e hr
  simp [skipBlanks] at hr

theorem failsWith_expect (b : UInt8) {cause : Cause} (hcause : P cause) :
    FailsWith (expect b cause) P := by
  intro h k e hr
  rw [(expect_eq_error_iff.1 hr).2.1]
  exact hcause

theorem FailsWith.bind {r : Reading α} {f : α → Reading β} (hr : FailsWith r P)
    (hf : ∀ a, FailsWith (f a) P) : FailsWith (r >>= f) P := by
  intro h k e he
  rcases bind_eq_error_iff.1 he with he | ⟨a, l, -, he⟩
  · exact hr h k e he
  · exact hf a l k e he

theorem FailsWith.mapFault {r : Reading α} {f : Fault → Fault} (hr : FailsWith r P)
    (hf : ∀ e, P e.cause → Q (f e).cause) : FailsWith (r.mapFault f) Q := by
  intro h k e he
  unfold Reading.mapFault at he
  split at he
  · simp at he
  · rename_i e' l hr'
    simp only [Prod.mk.injEq, Except.error.injEq] at he
    rw [← he.1]
    exact hf e' (hr h l e' hr')

theorem FailsWith.mono {r : Reading α} (hr : FailsWith r P) (hPQ : ∀ cause, P cause → Q cause) :
    FailsWith r Q :=
  fun h k e he => hPQ _ (hr h k e he)

end Reading

namespace Value

variable {α : Type} {h k : Head} {e : Fault} {name : String} {value : Reading α}
  {P : Cause → Prop}

theorem failsWith_float : FailsWith float (· = .notANumber) := by
  intro h k e hr
  unfold float at hr
  split at hr
  · simp at hr
  · simp only [Prod.mk.injEq, Except.error.injEq] at hr
    rw [← hr.1]

/-- The components from an index on, of a tuple that has `m` of them. -/
theorem failsWith_components {m : Nat} (hm : 2 ≤ m) {index n : Nat} (hindex : 1 ≤ index)
    (hn : index + n ≤ m + 1) :
    FailsWith (components .float float index n) (HintCause m) := by
  induction n generalizing index with
  | zero => exact failsWith_pure []
  | succ n ih =>
      have hseparator : FailsWith (separator index) (HintCause m) := by
        unfold separator
        split
        · exact failsWith_pure ()
        · exact failsWith_skipBlanks.bind fun _ => failsWith_expect _ hm
      refine hseparator.bind fun _ => failsWith_skipBlanks.bind fun _ => ?_
      refine (failsWith_float.mapFault fun e he => ?_).bind fun a => ?_
      · rw [asComponent, he]
        exact ⟨hm, hindex, by omega, rfl⟩
      · exact (ih (by omega) (by omega)).bind fun as => failsWith_pure _

theorem failsWith_floats {n : Nat} (hn : 2 ≤ n) : FailsWith (floats n) (HintCause n) := by
  refine (failsWith_expect _ ⟨hn, rfl⟩).bind fun _ => ?_
  refine (failsWith_components hn le_rfl (by omega)).bind fun as => ?_
  refine failsWith_skipBlanks.bind fun _ => ?_
  exact (failsWith_expect _ ⟨hn, rfl⟩).bind fun _ => failsWith_pure as

theorem failsWith_string :
    FailsWith string (fun cause => cause = .stringUnopened ∨ cause = .stringUnclosed) := by
  intro h k e hr
  unfold string at hr
  split at hr
  · split at hr
    · unfold stringBody at hr
      simp only at hr
      split at hr
      · simp at hr
      · simp only [Prod.mk.injEq, Except.error.injEq] at hr
        exact .inr (by rw [← hr.1])
    · simp only [Prod.mk.injEq, Except.error.injEq] at hr
      exact .inl (by rw [← hr.1])
  · simp only [Prod.mk.injEq, Except.error.injEq] at hr
    exact .inl (by rw [← hr.1])

theorem failsWith_boundedString :
    FailsWith (boundedString (some Limits.pathBytes)) PathCause := by
  intro h k e hr
  unfold boundedString at hr
  split at hr
  · rename_i e' l hs
    simp only [Prod.mk.injEq, Except.error.injEq] at hr
    obtain ⟨rfl, -⟩ := hr
    rcases failsWith_string h l e' hs with hc | hc
    · rw [hc]
      trivial
    · rw [hc]
      trivial
  · simp only at hr
    split at hr
    · simp at hr
    · rename_i hlong
      simp only [Prod.mk.injEq, Except.error.injEq] at hr
      rw [← hr.1]
      exact ⟨rfl, not_le.1 hlong⟩

/-- Once its name is there, an argument fails by its equals sign or its value. -/
theorem argument_eq_error (hvalue : FailsWith value P)
    (hequals : P (.argumentWithoutEquals name)) (hname : Run isWord (Utf8.bytes name))
    (hr : argument name value h = (.error e, k)) : h.word = Utf8.bytes name ∧ P e.cause := by
  have hafter : FailsWith (afterName name value) P :=
    failsWith_skipBlanks.bind fun _ => (failsWith_expect _ hequals).bind fun _ =>
      failsWith_skipBlanks.bind fun _ => hvalue
  unfold argument at hr
  split at hr
  · simp at hr
  · rename_i l hl
    split at hr
    · simp at hr
    · rename_i e' m hm
      simp only [Prod.mk.injEq, Except.error.injEq] at hr
      rw [← hr.1]
      exact ⟨((Head.keyword?_eq_some_iff_word hname).1 hl).1, hafter l m e' hm⟩

theorem word_ne_of_argument_none (hname : Run isWord (Utf8.bytes name))
    (hr : argument name value h = (.ok none, k)) : h.word ≠ Utf8.bytes name := by
  intro hword
  unfold argument at hr
  rw [(Head.keyword?_eq_some_iff_word hname).2 ⟨hword, rfl⟩] at hr
  simp only at hr
  split at hr <;> simp at hr

end Value

namespace Metadata

variable {type : UniformType} {m : Metadata} {h k : Head} {e : Fault}

theorem failsWith_readHint {n : Nat} (hn : 1 ≤ n) : FailsWith (readHint n) (HintCause n) := by
  unfold readHint
  split
  · rename_i hone
    subst hone
    refine (Value.failsWith_float.mono fun cause hcause => ?_).bind fun _ => failsWith_pure _
    rw [hcause]
    rfl
  · exact Value.failsWith_floats (by omega)

theorem argumentNames_of_components? {n : Nat} (hn : type.components? = some n) :
    type.argumentNames = ["mean", "scale"] := by
  simp [UniformType.argumentNames, hn]

theorem argumentNames_of_isSampler (hn : type.components? = none)
    (hs : type.isSampler = true) : type.argumentNames = ["file"] := by
  simp [UniformType.argumentNames, hn, hs]

theorem run_of_mem_argumentNames {name : String} (hname : name ∈ type.argumentNames) :
    Run isWord (Utf8.bytes name) := by
  revert name
  cases type <;> decide

/-- A fault in an argument belongs to one whose name is there. -/
theorem argument_eq_error {α : Type} {name : String} {value : Reading α}
    (hname : name ∈ type.argumentNames) (hvalue : FailsWith value (ArgumentCause type))
    (hr : Value.argument name value h = (.error e, k)) :
    (∃ name ∈ type.argumentNames, h.word = Utf8.bytes name) ∧ ArgumentCause type e.cause := by
  obtain ⟨hword, hcause⟩ :=
    Value.argument_eq_error hvalue (.equals hname) (run_of_mem_argumentNames hname) hr
  exact ⟨⟨name, hname, hword⟩, hcause⟩

theorem readHints_eq_error {n : Nat} (hn : type.components? = some n)
    (hr : readHints n m h = (.error e, k)) :
    (∃ name ∈ type.argumentNames, h.word = Utf8.bytes name) ∧ ArgumentCause type e.cause := by
  have hnames := argumentNames_of_components? hn
  have hhint : FailsWith (readHint n) (ArgumentCause type) :=
    (failsWith_readHint (one_le_of_components? hn)).mono fun _ hc => .hint hn hc
  unfold readHints at hr
  split at hr
  · rename_i e' l hl
    obtain ⟨rfl, -⟩ : e' = e ∧ l = k := by simpa using hr
    exact argument_eq_error (by simp [hnames]) hhint hl
  · simp at hr
  · rename_i l hl
    obtain rfl := Value.eq_of_argument_none hl
    split at hr
    · rename_i e' l' hl'
      obtain ⟨rfl, -⟩ : e' = e ∧ l' = k := by simpa using hr
      exact argument_eq_error (by simp [hnames]) hhint hl'
    · simp at hr
    · simp at hr

theorem readFile_eq_error (hn : type.components? = none) (hs : type.isSampler = true)
    (hr : readFile m h = (.error e, k)) :
    (∃ name ∈ type.argumentNames, h.word = Utf8.bytes name) ∧ ArgumentCause type e.cause := by
  have hpath : FailsWith (Value.boundedString (some Limits.pathBytes)) (ArgumentCause type) :=
    Value.failsWith_boundedString.mono fun _ hc => .path hs hc
  unfold readFile at hr
  split at hr
  · rename_i e' l hl
    obtain ⟨rfl, -⟩ : e' = e ∧ l = k := by simpa using hr
    exact argument_eq_error (by simp [argumentNames_of_isSampler hn hs]) hpath hl
  · simp at hr
  · simp at hr

theorem readArgument_eq_error (hr : readArgument type m h = (.error e, k)) :
    (∃ name ∈ type.argumentNames, h.word = Utf8.bytes name) ∧ ArgumentCause type e.cause := by
  cases hn : type.components? with
  | some n =>
      simp only [readArgument, hn] at hr
      exact readHints_eq_error hn hr
  | none =>
      by_cases hs : type.isSampler = true
      · simp only [readArgument, hn, hs, if_true] at hr
        exact readFile_eq_error hn hs hr
      · simp [readArgument, hn, hs] at hr

/-- Where no argument is read, none of the names is there. -/
theorem word_ne_of_readArgument_none (hr : readArgument type m h = (.ok none, k)) :
    ∀ name ∈ type.argumentNames, h.word ≠ Utf8.bytes name := by
  cases hn : type.components? with
  | some n =>
      rw [argumentNames_of_components? hn]
      simp only [readArgument, hn, readHints] at hr
      split at hr
      · simp at hr
      · simp at hr
      · rename_i l hl
        obtain rfl := Value.eq_of_argument_none hl
        split at hr
        · simp at hr
        · simp at hr
        · rename_i l' hl'
          simp only [List.forall_mem_cons, List.not_mem_nil, false_implies, implies_true, and_true]
          exact ⟨Value.word_ne_of_argument_none (by decide) hl,
            Value.word_ne_of_argument_none (by decide) hl'⟩
  | none =>
      by_cases hs : type.isSampler = true
      · rw [argumentNames_of_isSampler hn hs, List.forall_mem_singleton]
        simp only [readArgument, hn, hs, if_true, readFile] at hr
        split at hr
        · simp at hr
        · simp at hr
        · rename_i l hl
          exact Value.word_ne_of_argument_none (by decide) hl
      · simp [UniformType.argumentNames, hn, hs]

end Metadata

end UniformBlock
