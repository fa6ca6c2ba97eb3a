import UniformBlock.Proofs.Localisation

/-!
# Every loop ends

The readers that go on as long as there is something to read are loops: the one
over the words of a document, the one over the arguments of a list, and those that
skip what stands between words. A `Turn` says what one turn of a loop comes to, and
`Turn.Ends` counts how often the body of the loop is run.

A reader unrolls a loop (`Turn.Unrolls`) if it computes the same a turn at a time
and a measure pays for every run of the body. For most loops the measure is the
number of bytes left. A turn over an argument that the type does not take may read
nothing at all, but it flags the list, and the next turn finds the flag: there the
measure counts one turn more, as long as the list has no flag.

`Document.progresses` puts the loops of a scan together.
-/

namespace UniformBlock

open Ascii Grammar

/-- What one turn of a loop comes to. -/
inductive Turn (σ ρ : Type) where
  /-- The loop is left without a further run of its body. -/
  | leave (result : ρ)
  /-- The body is run and ends the loop. -/
  | stop (result : ρ)
  /-- The body is run, and the loop goes on. -/
  | again (state : σ)

namespace Turn

variable {σ ρ : Type} {turn : σ → Turn σ ρ} {f : σ → ρ} {μ : σ → Nat}

/-- From a state, the loop runs its body the given number of times and ends with a
result. -/
inductive Ends (turn : σ → Turn σ ρ) : σ → Nat → ρ → Prop
  | leave {s : σ} {r : ρ} (hs : turn s = .leave r) : Ends turn s 0 r
  | stop {s : σ} {r : ρ} (hs : turn s = .stop r) : Ends turn s 1 r
  | again {s t : σ} {n : Nat} {r : ρ} (hs : turn s = .again t) (ht : Ends turn t n r) :
      Ends turn s (n + 1) r

/-- From a state, the loop ends with the given result and no other, and its body is
run at most `bound` times. -/
structure EndsWithin (turn : σ → Turn σ ρ) (s : σ) (bound : Nat) (result : ρ) : Prop where
  ends : ∃ n, Ends turn s n result
  bounded : ∀ n r, Ends turn s n r → n ≤ bound ∧ r = result

/-- The result of a loop after one turn of it, where `f` says what further turns come
to. -/
def result (f : σ → ρ) : Turn σ ρ → ρ
  | leave r => r
  | stop r => r
  | again t => f t

/-- The function `f` computes what the loop does, and every run of the body takes
something from the measure `μ`. -/
structure Unrolls (turn : σ → Turn σ ρ) (f : σ → ρ) (μ : σ → Nat) : Prop where
  eq_result : ∀ s, f s = (turn s).result f
  pos_of_stop : ∀ s r, turn s = .stop r → 0 < μ s
  lt_of_again : ∀ s t, turn s = .again t → μ t < μ s

theorem Unrolls.exists_ends (hf : Unrolls turn f μ) (s : σ) : ∃ n, Ends turn s n (f s) := by
  -- on the measure, which every further turn makes smaller
  induction hμ : μ s using Nat.strongRecOn generalizing s with
  | ind m ih =>
      rw [hf.eq_result s]
      cases hs : turn s with
      | leave r => exact ⟨0, .leave hs⟩
      | stop r => exact ⟨1, .stop hs⟩
      | again t =>
          obtain ⟨n, hn⟩ := ih (μ t) (hμ ▸ hf.lt_of_again s t hs) t rfl
          exact ⟨n + 1, .again hs hn⟩

theorem Unrolls.bounded (hf : Unrolls turn f μ) {s : σ} {n : Nat} {r : ρ}
    (h : Ends turn s n r) : n ≤ μ s ∧ r = f s := by
  induction h with
  | leave hs =>
      rw [hf.eq_result, hs]
      exact ⟨Nat.zero_le _, rfl⟩
  | stop hs =>
      rw [hf.eq_result, hs]
      exact ⟨hf.pos_of_stop _ _ hs, rfl⟩
  | again hs _ ih =>
      rw [hf.eq_result, hs]
      exact ⟨Nat.lt_of_le_of_lt ih.1 (hf.lt_of_again _ _ hs), ih.2⟩

theorem Unrolls.endsWithin (hf : Unrolls turn f μ) {s : σ} {bound : Nat} (hs : μ s ≤ bound) :
    EndsWithin turn s bound (f s) where
  ends := hf.exists_ends s
  bounded _ _ h := ⟨(hf.bounded h).1.trans hs, (hf.bounded h).2⟩

/-- One turn of a loop that takes a step as long as there is one. -/
def ofStep (step? : σ → Option σ) (s : σ) : Turn σ σ :=
  match step? s with
  | some t => .again t
  | none => .leave s

theorem ofStep_eq_again_iff {step? : σ → Option σ} {s t : σ} :
    ofStep step? s = .again t ↔ step? s = some t := by
  unfold ofStep
  cases step? s <;> simp

theorem unrolls_ofStep {step? : σ → Option σ} {f : σ → σ}
    (hnone : ∀ s, step? s = none → f s = s)
    (hsome : ∀ s t, step? s = some t → f s = f t ∧ μ t < μ s) : Unrolls (ofStep step?) f μ where
  eq_result s := by
    cases hs : step? s with
    | none => rw [hnone s hs, ofStep, hs, result]
    | some t => rw [(hsome s t hs).1, ofStep, hs, result]
  pos_of_stop s r hs := by
    cases ht : step? s <;> simp [ofStep, ht] at hs
  lt_of_again s t hs := (hsome s t (ofStep_eq_again_iff.1 hs)).2

end Turn

/-! ## Between words -/

namespace Head

variable {h k : Head}

theorem length_rest_le_size (h : Head) : h.rest.length ≤ h.source.size := by
  rw [length_rest]
  exact Nat.sub_le _ _

/-- Where less is left of the same source, the head has moved on. -/
theorem Reaches.pos_lt (hk : h.Reaches k) (hlt : k.rest.length < h.rest.length) :
    h.pos < k.pos := by
  rw [length_rest, length_rest, hk.source_eq] at hlt
  omega

theorem reaches_of_skipComment? (hc : h.skipComment? = some k) : h.Reaches k := by
  unfold skipComment? at hc
  split at hc
  · exact Option.some.inj hc ▸ (reaches_skipWhile h _).trans (reaches_skipWhile _ _)
  · split at hc
    · exact Option.some.inj hc ▸ reaches_skip h _
    · cases hc

theorem reaches_of_skipGap? (hg : h.skipGap? = some k) : h.Reaches k := by
  unfold skipGap? at hg
  split at hg
  · rename_i later hc
    exact Option.some.inj hg ▸ reaches_of_skipComment? hc
  · split at hg
    · exact Option.some.inj hg ▸ reaches_skipBlanks h
    · split at hg
      · cases hg
      · exact Option.some.inj hg ▸ reaches_skip h _

theorem reaches_toWord (h : Head) : h.Reaches h.toWord := by
  fun_induction toWord h with
  | case1 h later hg ih => exact (reaches_of_skipGap? hg).trans ih
  | case2 h hg => exact Reaches.refl h

/-- One step over a run: one byte of the class. -/
def runStep? (p : UInt8 → Bool) (h : Head) : Option Head :=
  if h.peek?.any p then some (h.skip 1) else none

/-- One step over punctuation: one byte that begins neither a word nor a comment. -/
def punctuationStep? (h : Head) : Option Head :=
  if h.peek?.all isWord || startsComment h.rest then none else some (h.skip 1)

theorem unrolls_skipWhile (p : UInt8 → Bool) :
    Turn.Unrolls (Turn.ofStep (runStep? p)) (·.skipWhile p) (·.rest.length) := by
  refine Turn.unrolls_ofStep (fun h hs => ?_) (fun h k hs => ?_)
  · cases hrest : h.rest with
    | nil => simp [skipWhile, hrest]
    | cons b bs =>
        have hb : p b = false := by simpa [runStep?, peek?, hrest] using hs
        simp [skipWhile, hrest, hb]
  · cases hrest : h.rest with
    | nil => simp [runStep?, peek?, hrest] at hs
    | cons b bs =>
        obtain ⟨hb, rfl⟩ : p b = true ∧ h.skip 1 = k := by simpa [runStep?, peek?, hrest] using hs
        simp [skipWhile, hrest, hb, skip_skip, Nat.add_comm 1]

theorem unrolls_skipPunctuation :
    Turn.Unrolls (Turn.ofStep punctuationStep?) skipPunctuation (·.rest.length) := by
  refine Turn.unrolls_ofStep (fun h hs => ?_) (fun h k hs => ?_)
  · cases hrest : h.rest with
    | nil => simp [skipPunctuation, punctuationLength, hrest]
    | cons b bs =>
        have hstop : (isWord b || startsComment (b :: bs)) = true := by
          by_contra hgo
          simp [punctuationStep?, peek?, hrest, hgo] at hs
        rw [skipPunctuation, hrest, punctuationLength, if_pos hstop, skip_zero]
  · cases hrest : h.rest with
    | nil => simp [punctuationStep?, peek?, hrest] at hs
    | cons b bs =>
        obtain ⟨⟨hword, hcomment⟩, rfl⟩ :
            (isWord b = false ∧ startsComment (b :: bs) = false) ∧ h.skip 1 = k := by
          simpa [punctuationStep?, peek?, hrest] using hs
        have hb : h.Takes [b] (h.skip 1) := takes_skip hrest
        exact ⟨(skipPunctuation_of_takes hb hword (hrest ▸ hcomment)).symm,
          hrest ▸ hb.length_lt (by simp)⟩

theorem unrolls_toWord : Turn.Unrolls (Turn.ofStep skipGap?) toWord (·.rest.length) :=
  Turn.unrolls_ofStep (fun _ => toWord_of_none)
    fun _ _ hg => ⟨toWord_of_some hg, length_skipGap?_lt hg⟩

end Head

/-! ## Arguments -/

theorem ArgumentList.turns_le (list : ArgumentList) : list.turns ≤ 1 := by
  match list with
  | .closed => exact Nat.zero_le 1
  | .ongoing _ true => exact Nat.zero_le 1
  | .ongoing _ false => exact Nat.le_refl 1

namespace Metadata

/-- How far the loop over the arguments of a list has come. -/
structure Progress where
  list : ArgumentList
  metadata : Metadata
  head : Head

/-- One turn of the loop over the arguments of a list. -/
def turn (type : UniformType) (s : Progress) : Turn Progress (Except Fault Metadata × Head) :=
  match s.list.next s.head with
  | (.error e, k) => .leave (.error e, k)
  | (.ok (false, later), k) =>
    match later.finish k with
    | (.error e, l) => .leave (.error e, l)
    | (.ok _, l) => .leave (.ok s.metadata, l)
  | (.ok (true, later), k) =>
    match readArgument type s.metadata k with
    | (.error e, l) => .stop (.error e, l)
    | (.ok (some updated), l) => .again ⟨later, updated, l⟩
    | (.ok none, l) => .again ⟨later.flag, s.metadata, l⟩

variable {type : UniformType} {s t : Progress}

/-- The body of the loop is run where there is a next element. -/
theorem exists_next_of_turn_eq_stop {r : Except Fault Metadata × Head}
    (hs : turn type s = .stop r) :
    ∃ later k, s.list.next s.head = (.ok (true, later), k) := by
  unfold turn at hs
  split at hs
  · cases hs
  · split at hs <;> cases hs
  · exact ⟨_, _, ‹_›⟩

/-- The loop goes on behind an argument that was read, or with a flag where there was
none to read. -/
theorem exists_next_of_turn_eq_again (hs : turn type s = .again t) :
    ∃ later k, s.list.next s.head = (.ok (true, later), k) ∧
      (readArgument type s.metadata k = (.ok (some t.metadata), t.head) ∧ t.list = later ∨
        readArgument type s.metadata k = (.ok none, t.head) ∧ t.list = later.flag) := by
  unfold turn at hs
  split at hs
  · cases hs
  · split at hs <;> cases hs
  · rename_i later k hn
    refine ⟨later, k, hn, ?_⟩
    split at hs
    · cases hs
    · cases hs
      exact .inl ⟨‹_›, rfl⟩
    · cases hs
      exact .inr ⟨‹_›, rfl⟩

theorem unrolls_readArguments (type : UniformType) :
    Turn.Unrolls (turn type) (fun s => readArguments type s.list s.metadata s.head)
      (fun s => s.head.rest.length + s.list.turns) where
  eq_result s := by
    rw [readArguments, turn]
    split
    · rename_i e k hn
      simp only [hn, Turn.result]
    · rename_i later k hn
      simp only [hn]
      cases later.finish k with
      | mk answer l => cases answer <;> rfl
    · rename_i later k hn
      simp only [hn]
      split
      · rename_i hr
        simp only [hr, Turn.result]
      · rename_i hr
        simp only [hr, Turn.result]
      · rename_i hr
        simp only [hr, Turn.result]
  pos_of_stop s r hs := by
    obtain ⟨later, k, hn⟩ := exists_next_of_turn_eq_stop hs
    rw [(ArgumentList.turns_of_next hn).1]
    exact Nat.succ_pos _
  lt_of_again s t hs := by
    obtain ⟨later, k, hn, hr⟩ := exists_next_of_turn_eq_again hs
    have hle := (ArgumentList.forward_next s.list s.head).length_le
    have hturns := ArgumentList.turns_of_next hn
    simp only [hn] at hle
    obtain ⟨hr, hlist⟩ | ⟨hr, hlist⟩ := hr
    · have hlt := length_lt_of_readArgument_some hr
      rw [hlist]
      omega
    · rw [hlist, eq_of_readArgument_none hr, ArgumentList.turns_flag]
      omega

/-- A turn that goes on has read an argument, or has flagged the list, and then the
next one is refused. -/
theorem pos_lt_or_flagged_of_turn (hs : turn type s = .again t) :
    s.head.pos < t.head.pos ∨ (∃ first, t.list = .ongoing first true) ∧
      t.list.next t.head = (.error ⟨t.head.pos, .argumentUnknown⟩, t.head) := by
  obtain ⟨later, k, hn, hr⟩ := exists_next_of_turn_eq_again hs
  have hnext := ArgumentList.forward_next s.list s.head
  simp only [hn] at hnext
  obtain ⟨hr, -⟩ | ⟨-, hlist⟩ := hr
  · have hread := forward_readArgument type s.metadata k
    simp only [hr] at hread
    exact .inl (Nat.lt_of_le_of_lt hnext.pos_le
      (hread.pos_lt (length_lt_of_readArgument_some hr)))
  · -- only an open list has a next element
    have hturns := (ArgumentList.turns_of_next hn).2
    cases later with
    | closed => cases hturns
    | ongoing first flagged =>
        rw [hlist]
        exact .inr ⟨⟨first, rfl⟩, rfl⟩

end Metadata

/-! ## Documents -/

namespace Document

/-- How far the loop over the words of a document has come. -/
structure Progress where
  head : Head
  declared : Nat
  acc : List Declaration

/-- One turn of the loop over the words of a document. -/
def turn (s : Progress) : Turn Progress Contents :=
  if s.head.toWord.atEnd then .leave ⟨s.acc.reverse, none⟩
  else
    match s.head.toWord.keyword? declarationKeyword with
    | none => .again ⟨s.head.toWord.takeWord.2, s.declared, s.acc⟩
    | some k =>
      match Declaration.read s.declared k with
      | (.error fault, _) => .stop ⟨s.acc.reverse, some fault⟩
      | (.ok d, l) => .again ⟨l, s.declared + 1, d :: s.acc⟩

variable {s t : Progress}

theorem readFrom_eq_result (s : Progress) :
    readFrom s.head s.declared s.acc =
      (turn s).result fun t => readFrom t.head t.declared t.acc := by
  rw [turn]
  cases hend : s.head.toWord.atEnd with
  | true => rw [readFrom, dif_pos hend, if_pos rfl, Turn.result]
  | false =>
      rw [if_neg (by decide)]
      cases hk : s.head.toWord.keyword? declarationKeyword with
      | none => exact readFrom_of_word hend hk
      | some k =>
          rw [readFrom_of_keyword? hk]
          cases hd : Declaration.read s.declared k with
          | mk answer l => cases answer <;> simp only [hd, Turn.result]

/-- The body of the loop is run in front of a word. -/
theorem not_atEnd_of_turn_ne_leave (hs : ∀ r, turn s ≠ .leave r) :
    s.head.toWord.atEnd = false := by
  by_contra hend
  rw [Bool.not_eq_false] at hend
  exact hs ⟨s.acc.reverse, none⟩ (by rw [turn, if_pos hend])

/-- The loop goes on behind that word. -/
theorem reaches_of_turn_eq_again (hs : turn s = .again t) :
    s.head.toWord.Reaches t.head ∧ t.head.rest.length < s.head.toWord.rest.length := by
  have hend : s.head.toWord.atEnd = false :=
    not_atEnd_of_turn_ne_leave fun r hr => by rw [hr] at hs; cases hs
  rw [turn, if_neg (by rw [hend]; decide)] at hs
  split at hs
  · cases hs
    have hword := Head.atWord_of_skipGap?_eq_none (Head.skipGap?_toWord s.head) hend
    exact ⟨Head.reaches_skip _ _, Head.length_takeWord_lt hword⟩
  · rename_i k hk
    split at hs
    · cases hs
    · rename_i d l hd
      cases hs
      have hread := Declaration.forward_read s.declared k
      simp only [hd] at hread
      exact ⟨(Head.reaches_of_keyword? hk).trans hread,
        Nat.lt_of_le_of_lt hread.length_le (Head.length_lt_of_keyword? (by decide) hk)⟩

theorem unrolls_readFrom :
    Turn.Unrolls turn (fun s => readFrom s.head s.declared s.acc) (·.head.rest.length) where
  eq_result := readFrom_eq_result
  pos_of_stop s r hs := by
    have hend : s.head.toWord.atEnd = false :=
      not_atEnd_of_turn_ne_leave fun r' hr => by rw [hr] at hs; cases hs
    rw [Head.atEnd, List.isEmpty_eq_false_iff, ← List.length_pos_iff] at hend
    exact Nat.lt_of_lt_of_le hend (Head.length_toWord_le s.head)
  lt_of_again s t hs :=
    Nat.lt_of_lt_of_le (reaches_of_turn_eq_again hs).2 (Head.length_toWord_le s.head)

theorem pos_lt_of_turn_eq_again (hs : turn s = .again t) : s.head.pos < t.head.pos := by
  obtain ⟨hreaches, hlt⟩ := reaches_of_turn_eq_again hs
  exact Nat.lt_of_le_of_lt (Head.reaches_toWord s.head).pos_le (hreaches.pos_lt hlt)

/-- The loops of a scan of the source: each of them ends with what its reader
computes, and every turn that goes on has moved the head or has made the next one
fail. -/
structure Progresses (source : Source) : Prop where
  words : Turn.EndsWithin turn ⟨Head.start source, 0, []⟩ source.size (read source)
  arguments : ∀ (type : UniformType) (s : Metadata.Progress), s.head.source = source →
    Turn.EndsWithin (Metadata.turn type) s (source.size + 1)
      (Metadata.readArguments type s.list s.metadata s.head)
  gaps : ∀ h : Head, h.source = source →
    Turn.EndsWithin (Turn.ofStep Head.skipGap?) h source.size h.toWord
  runs : ∀ (p : UInt8 → Bool) (h : Head), h.source = source →
    Turn.EndsWithin (Turn.ofStep (Head.runStep? p)) h source.size (h.skipWhile p)
  punctuation : ∀ h : Head, h.source = source →
    Turn.EndsWithin (Turn.ofStep Head.punctuationStep?) h source.size h.skipPunctuation
  words_move : ∀ s t : Progress, s.head.source = source → turn s = .again t →
    s.head.pos < t.head.pos
  gaps_move : ∀ h k : Head, h.source = source → Turn.ofStep Head.skipGap? h = .again k →
    h.pos < k.pos
  arguments_move : ∀ (type : UniformType) (s t : Metadata.Progress), s.head.source = source →
    Metadata.turn type s = .again t →
      s.head.pos < t.head.pos ∨ (∃ first, t.list = .ongoing first true) ∧
        t.list.next t.head = (.error ⟨t.head.pos, .argumentUnknown⟩, t.head)

/-- Every scan ends, whatever its source, and so do the loops in it. -/
theorem progresses (source : Source) : Progresses source := by
  have hrest {h : Head} (hsource : h.source = source) : h.rest.length ≤ source.size :=
    hsource ▸ h.length_rest_le_size
  refine ⟨?_, fun type s hs => ?_, fun h hh => ?_, fun p h hh => ?_, fun h hh => ?_,
    fun s t _ => pos_lt_of_turn_eq_again, fun h k _ hk => ?_,
    fun type s t _ => Metadata.pos_lt_or_flagged_of_turn⟩
  · exact unrolls_readFrom.endsWithin (hrest rfl)
  · exact (Metadata.unrolls_readArguments type).endsWithin
      (Nat.add_le_add (hrest hs) s.list.turns_le)
  · exact Head.unrolls_toWord.endsWithin (hrest hh)
  · exact (Head.unrolls_skipWhile p).endsWithin (hrest hh)
  · exact Head.unrolls_skipPunctuation.endsWithin (hrest hh)
  · have hg := Turn.ofStep_eq_again_iff.1 hk
    exact (Head.reaches_of_skipGap? hg).pos_lt (Head.length_skipGap?_lt hg)

end Document

end UniformBlock
