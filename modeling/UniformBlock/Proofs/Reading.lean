import Mathlib.Data.List.TakeWhile
import UniformBlock.Proofs.Grammar

/-!
# What the basic readers take

`h.Takes w k` says that the bytes `w` stand in front of the head `h` and that
`k` is the head behind them. Each basic reader is described by the bytes it
takes; compositions are taken apart by `bind_eq_ok_iff` and put together along
the same line, so that soundness and completeness of a composed reader both read
like its definition.

A blank run or a word is taken as far as it goes. Where a composed reader is
complete, what follows such a run has to stop it: this is what the hypotheses
`Stops` are for.
-/

namespace UniformBlock

open Ascii Grammar

namespace Grammar

variable {p q : UInt8 → Bool} {u v : List UInt8}

theorem run_nil : Run p [] := by simp [Run]

theorem run_cons {b : UInt8} {bs : List UInt8} :
    Run p (b :: bs) ↔ p b = true ∧ Run p bs := by
  simp [Run]

theorem run_append (hu : Run p u) (hv : Run p v) : Run p (u ++ v) := by
  intro b hb
  rcases List.mem_append.1 hb with hb | hb
  · exact hu b hb
  · exact hv b hb

theorem stops_nil : Stops p [] := by simp [Stops]

@[simp] theorem stops_cons {b : UInt8} {bs : List UInt8} :
    Stops p (b :: bs) ↔ p b = false := by
  simp [Stops]

theorem run_takeWhile (p : UInt8 → Bool) (bs : List UInt8) : Run p (bs.takeWhile p) := by
  intro b hb
  exact List.mem_takeWhile_imp hb

theorem takeWhile_append (hu : Run p u) (hv : Stops p v) : (u ++ v).takeWhile p = u := by
  rw [List.takeWhile_append_of_pos hu]
  cases v with
  | nil => rw [List.takeWhile_nil, List.append_nil]
  | cons b bs => rw [List.takeWhile_cons_of_neg (by rw [stops_cons.1 hv]; decide), List.append_nil]

theorem stops_drop_takeWhile (p : UInt8 → Bool) (bs : List UInt8) :
    Stops p (bs.drop (bs.takeWhile p).length) := by
  induction bs with
  | nil => exact stops_nil
  | cons b bs ih =>
      by_cases hb : p b = true
      · rw [List.takeWhile_cons_of_pos hb, List.length_cons, List.drop_succ_cons]
        exact ih
      · rw [List.takeWhile_cons_of_neg hb, List.length_nil, List.drop_zero]
        exact stops_cons.2 (Bool.eq_false_iff.2 hb)

theorem takeWhile_append_drop (p : UInt8 → Bool) (bs : List UInt8) :
    bs.takeWhile p ++ bs.drop (bs.takeWhile p).length = bs := by
  induction bs with
  | nil => rfl
  | cons b bs ih =>
      by_cases hb : p b = true
      · rw [List.takeWhile_cons_of_pos hb, List.length_cons, List.drop_succ_cons,
          List.cons_append, ih]
      · rw [List.takeWhile_cons_of_neg hb, List.length_nil, List.drop_zero, List.nil_append]

/-- A run that is not empty stops another class if none of its bytes belongs to
both. -/
theorem Run.stops (hu : Run p u) (hpq : ∀ b, p b = true → q b = false) (hv : Stops q v) :
    Stops q (u ++ v) := by
  cases u with
  | nil => exact hv
  | cons b bs => exact stops_cons.2 (hpq b (run_cons.1 hu).1)

end Grammar

namespace Head

/-- The bytes `w` stand in front of the head, and `k` is the head behind them. -/
structure Takes (h : Head) (w : List UInt8) (k : Head) : Prop where
  rest_eq : h.rest = w ++ k.rest
  eq_skip : k = h.skip w.length

variable {h k l : Head} {u v w : List UInt8}

theorem takes_iff {rest : List UInt8} (hrest : h.rest = w ++ rest) :
    h.Takes w k ↔ k = h.skip w.length := by
  constructor
  · exact Takes.eq_skip
  · rintro rfl
    refine ⟨?_, rfl⟩
    rw [rest_skip, hrest, List.drop_left]

theorem takes_skip {rest : List UInt8} (hrest : h.rest = w ++ rest) :
    h.Takes w (h.skip w.length) :=
  (takes_iff hrest).2 rfl

theorem exists_takes {rest : List UInt8} (hrest : h.rest = w ++ rest) :
    ∃ k, h.Takes w k ∧ k.rest = rest := by
  have hk := takes_skip hrest
  exact ⟨_, hk, List.append_cancel_left (hk.rest_eq.symm.trans hrest)⟩

theorem takes_nil (h : Head) : h.Takes [] h := ⟨rfl, (skip_zero h).symm⟩

theorem Takes.append (hu : h.Takes u k) (hv : k.Takes v l) : h.Takes (u ++ v) l := by
  refine ⟨?_, ?_⟩
  · rw [hu.rest_eq, hv.rest_eq, List.append_assoc]
  · rw [hv.eq_skip, hu.eq_skip, skip_skip, List.length_append]

theorem Takes.split (hw : h.Takes (u ++ v) l) : ∃ k, h.Takes u k ∧ k.Takes v l := by
  have hrest : h.rest = u ++ (v ++ l.rest) := by rw [hw.rest_eq, List.append_assoc]
  obtain ⟨k, hk, hrest'⟩ := exists_takes hrest
  refine ⟨k, hk, hrest', ?_⟩
  rw [hw.eq_skip, hk.eq_skip, skip_skip, List.length_append]

theorem Takes.uncons {a : UInt8} (hw : h.Takes (a :: w) l) :
    ∃ k, h.Takes [a] k ∧ k.Takes w l := by
  rw [← List.singleton_append] at hw
  exact hw.split

theorem Takes.eq_of_nil (hw : h.Takes [] k) : k = h := by
  rw [hw.eq_skip, List.length_nil, skip_zero]

theorem Takes.length_lt (hw : h.Takes w k) (hne : w ≠ []) : k.rest.length < h.rest.length := by
  rw [hw.rest_eq, List.length_append]
  exact Nat.lt_add_of_pos_left (List.length_pos_iff.2 hne)

theorem takes_skipWhile (h : Head) (p : UInt8 → Bool) :
    h.Takes (h.rest.takeWhile p) (h.skipWhile p) :=
  ⟨by rw [skipWhile, rest_skip, takeWhile_append_drop], rfl⟩

theorem stops_rest_skipWhile (h : Head) (p : UInt8 → Bool) : Stops p (h.skipWhile p).rest :=
  stops_drop_takeWhile p h.rest

/-- A run is skipped exactly when it is taken and stopped. -/
theorem skipWhile_eq {p : UInt8 → Bool} (hw : h.Takes w k) (hrun : Run p w)
    (hstop : Stops p k.rest) : h.skipWhile p = k := by
  rw [skipWhile, hw.rest_eq, takeWhile_append hrun hstop, hw.eq_skip]

theorem eat?_eq_some_iff {b : UInt8} : h.eat? b = some k ↔ h.Takes [b] k := by
  unfold eat?
  cases hrest : h.rest with
  | nil =>
      constructor
      · intro he
        simp at he
      · intro hb
        exact absurd (hrest.symm.trans hb.rest_eq) (by simp)
  | cons a bs =>
      constructor
      · intro he
        rw [List.head?_cons] at he
        split at he
        · rename_i hab
          obtain rfl := Option.some.inj hab
          have hrest : h.rest = [a] ++ bs := hrest
          exact (takes_iff hrest).2 (Option.some.inj he).symm
        · cases he
      · intro hb
        obtain ⟨rfl, -⟩ := List.cons.inj (hrest.symm.trans hb.rest_eq)
        rw [List.head?_cons, if_pos rfl, hb.eq_skip]
        rfl

theorem eat?_eq_none {b : UInt8} (hb : Stops (· == b) h.rest) : h.eat? b = none := by
  cases he : h.eat? b with
  | none => rfl
  | some k =>
      rw [(eat?_eq_some_iff.1 he).rest_eq, List.singleton_append, stops_cons] at hb
      simp at hb

theorem keyword?_eq_some_iff {keyword : String} :
    h.keyword? keyword = some k ↔ h.Takes (Utf8.bytes keyword) k ∧ Stops isWord k.rest := by
  simp only [keyword?]
  constructor
  · intro hk
    split at hk
    · rename_i hcond
      rw [Bool.and_eq_true, List.isPrefixOf_iff_prefix] at hcond
      obtain ⟨⟨rest, hrest⟩, hnext⟩ := hcond
      have htakes := takes_skip hrest.symm
      rw [Option.some.inj hk] at htakes
      refine ⟨htakes, ?_⟩
      rw [htakes.rest_eq, List.drop_left] at hnext
      intro b hb
      simpa [Option.mem_def.1 hb] using hnext
    · cases hk
  · rintro ⟨htakes, hstop⟩
    have hpre : Utf8.bytes keyword <+: h.rest := ⟨k.rest, htakes.rest_eq.symm⟩
    rw [if_pos, htakes.eq_skip]
    rw [Bool.and_eq_true, List.isPrefixOf_iff_prefix]
    refine ⟨hpre, ?_⟩
    rw [htakes.rest_eq, List.drop_left]
    cases hk : k.rest with
    | nil => rfl
    | cons b bs =>
        rw [hk, stops_cons] at hstop
        simp [hstop]

/-- A keyword made of letters and digits is the whole word in front of the head. -/
theorem keyword?_eq_some_iff_word {keyword : String} (hrun : Run isWord (Utf8.bytes keyword)) :
    h.keyword? keyword = some k ↔
      h.word = Utf8.bytes keyword ∧ k = h.skip (Utf8.bytes keyword).length := by
  rw [keyword?_eq_some_iff]
  constructor
  · rintro ⟨htakes, hstop⟩
    refine ⟨?_, htakes.eq_skip⟩
    rw [word, htakes.rest_eq, takeWhile_append hrun hstop]
  · rintro ⟨hword, rfl⟩
    have htakes := takes_skipWhile h isWord
    have hstop := stops_rest_skipWhile h isWord
    rw [skipWhile, ← word, hword] at htakes hstop
    exact ⟨htakes, hstop⟩

end Head

namespace Reading

variable {α β : Type} {h k : Head}

/-- A composition succeeds exactly when both parts do, one after the other. -/
theorem bind_eq_ok_iff {r : Reading α} {f : α → Reading β} {b : β} :
    (r >>= f) h = (.ok b, k) ↔ ∃ a l, r h = (.ok a, l) ∧ f a l = (.ok b, k) := by
  rw [bind_apply]
  constructor
  · intro hb
    split at hb
    · rename_i a l hr
      exact ⟨a, l, hr, hb⟩
    · simp at hb
  · rintro ⟨a, l, hr, hf⟩
    rw [hr]
    exact hf

theorem pure_eq_ok_iff {a b : α} : (pure a : Reading α) h = (.ok b, k) ↔ a = b ∧ h = k := by
  simp

theorem skipBlanks_eq_ok_iff {u : Unit} :
    skipBlanks h = (.ok u, k) ↔ ∃ w, Blanks w ∧ h.Takes w k ∧ Stops isBlank k.rest := by
  have htakes := Head.takes_skipWhile h isBlank
  constructor
  · intro hk
    obtain rfl : h.skipBlanks = k := (Prod.mk.inj hk).2
    exact ⟨_, run_takeWhile _ _, htakes, Head.stops_rest_skipWhile h isBlank⟩
  · rintro ⟨w, hw, hk, hstop⟩
    rw [skipBlanks, Head.skipBlanks, Head.skipWhile_eq hk hw hstop]

theorem expect_eq_ok_iff {b : UInt8} {cause : Cause} {u : Unit} :
    expect b cause h = (.ok u, k) ↔ h.Takes [b] k := by
  rw [← Head.eat?_eq_some_iff, expect]
  cases h.eat? b <;> simp

end Reading

end UniformBlock
