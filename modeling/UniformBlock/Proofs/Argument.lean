import UniformBlock.Proofs.Value

/-!
# Argument lists and their grammar

The loop over an argument list has two phases: in front of the first element a
separator is not allowed, behind it one is required. `RemainderText` says what is
left of the grammar of lists in either phase, and one turn of the loop takes one
item of it (`readArguments_sound`, `readArguments_complete`).

An argument that the type does not take leads to a flag, and a flagged list can
only fail on its next turn, so a list that is accepted never was flagged.
-/

namespace UniformBlock

open Ascii Grammar Reading

namespace Grammar

/-- What is left of a list behind its opening parenthesis, or behind an item. -/
def RemainderText {α : Type} (ItemText : α → List UInt8 → Prop) (first : Bool) (as : List α)
    (t : List UInt8) : Prop :=
  if first then ListText ItemText as (openParen :: t) else MoreText ItemText as t

theorem HintText.stops {n : Nat} {xs : List Single} {w : List UInt8} (h : HintText n xs w)
    (rest : List UInt8) : Stops isBlank (w ++ rest) := by
  cases h with
  | scalar hx => exact isItem_numberText.stops hx rest
  | tuple hn hlength hxs =>
      cases hxs with
      | empty hb => exact stops_cons.2 (by decide)
      | items hb ha has => exact stops_cons.2 (by decide)

theorem QuotedText.stops {s : String} {w : List UInt8} (h : QuotedText s w)
    (rest : List UInt8) : Stops isBlank (w ++ rest) := by
  obtain ⟨quote, hquote, -, rfl⟩ := h
  simp only [Value.isQuote, Bool.or_eq_true, beq_iff_eq] at hquote
  rcases hquote with rfl | rfl
  · exact stops_cons.2 (by decide)
  · exact stops_cons.2 (by decide)

theorem isWord_eq_false_of_isBlank (b : UInt8) (hb : isBlank b = true) : isWord b = false := by
  simp only [isBlank, Bool.or_eq_true, beq_iff_eq] at hb
  rcases hb with ((rfl | rfl) | rfl) | rfl <;> decide

theorem isItem_argumentText (type : UniformType) : IsItem (ArgumentText type) := by
  intro arg t ht
  cases ht with
  | mean hn hw ht =>
      obtain ⟨b, c, -, -, rfl⟩ := ht
      exact ⟨0x6D, rfl, by decide⟩
  | scale hn hw ht =>
      obtain ⟨b, c, -, -, rfl⟩ := ht
      exact ⟨0x73, rfl, by decide⟩
  | file htype hpath hw ht =>
      obtain ⟨b, c, -, -, rfl⟩ := ht
      exact ⟨0x66, rfl, by decide⟩

end Grammar

namespace Value

variable {α : Type} {ValueText : α → List UInt8 → Prop} {name : String} {value : Reading α}
  {h k : Head} {a : α}

theorem argument_eq_some_iff :
    argument name value h = (.ok (some a), k) ↔
      ∃ l, h.keyword? name = some l ∧ afterName name value l = (.ok a, k) := by
  unfold argument
  cases h.keyword? name with
  | none => simp
  | some l =>
      simp only [Option.some.injEq, exists_eq_left']
      cases hr : afterName name value l with
      | mk x m => cases x <;> simp

theorem argument_eq_none (hk : h.keyword? name = none) :
    argument name value h = (.ok none, h) := by
  simp only [argument, hk]

theorem argument_sound
    (hv : ∀ {h k : Head} {a : α}, Utf8.IsText h.rest → value h = (.ok a, k) →
      ∃ w, ValueText a w ∧ h.Takes w k)
    (hh : Utf8.IsText h.rest) (hr : argument name value h = (.ok (some a), k)) :
    ∃ w t, ValueText a w ∧ AssignedText name w t ∧ h.Takes t k := by
  obtain ⟨h₁, hname, hr⟩ := argument_eq_some_iff.1 hr
  obtain ⟨_, h₂, hblanks, hr⟩ := bind_eq_ok_iff.1 hr
  obtain ⟨_, h₃, hequals, hr⟩ := bind_eq_ok_iff.1 hr
  obtain ⟨_, h₄, hblanks', hr⟩ := bind_eq_ok_iff.1 hr
  have hmeets₁ := Head.meets_of_keyword? hname hh
  have hmeets₂ := (keepsText_skipBlanks.lands hmeets₁.2 hblanks).1
  have hmeets₃ := ((keepsText_expect (by decide) _).lands hmeets₂.2 hequals).1
  have hmeets₄ := (keepsText_skipBlanks.lands hmeets₃.2 hblanks').1
  obtain ⟨b, hb, htakes₂, -⟩ := skipBlanks_eq_ok_iff.1 hblanks
  obtain ⟨c, hc, htakes₄, -⟩ := skipBlanks_eq_ok_iff.1 hblanks'
  obtain ⟨w, hw, htakes⟩ := hv hmeets₄.2 hr
  refine ⟨w, _, hw, ⟨b, c, hb, hc, rfl⟩, ?_⟩
  exact (Head.keyword?_eq_some_iff.1 hname).1.append
    (htakes₂.append ((expect_eq_ok_iff.1 hequals).append (htakes₄.append htakes)))

/-- The name of an argument is the whole word in front of the head. -/
theorem word_of_assignedText {w t : List UInt8} (hname : Run isWord (Utf8.bytes name))
    (ht : AssignedText name w t) (htakes : h.Takes t k) : h.word = Utf8.bytes name := by
  obtain ⟨b, c, hb, hc, rfl⟩ := ht
  have hstop : Stops isWord (b ++ (equals :: (c ++ w)) ++ k.rest) := by
    rw [List.append_assoc]
    exact hb.stops isWord_eq_false_of_isBlank (stops_cons.2 (by decide))
  rw [Head.word, htakes.rest_eq, List.append_assoc, takeWhile_append hname hstop]

theorem argument_complete {w t : List UInt8} (hname : Run isWord (Utf8.bytes name))
    (hw : Stops isBlank (w ++ k.rest)) (hv : ∀ {l : Head}, l.Takes w k → value l = (.ok a, k))
    (ht : AssignedText name w t) (htakes : h.Takes t k) :
    argument name value h = (.ok (some a), k) := by
  have hword := word_of_assignedText hname ht htakes
  obtain ⟨b, c, hb, hc, rfl⟩ := ht
  obtain ⟨h₁, hkeyword, htakes⟩ := htakes.split
  obtain ⟨h₂, hblanks, htakes⟩ := skipBlanks_complete htakes hb (stops_cons.2 (by decide))
  obtain ⟨h₃, hequals, htakes⟩ := expect_complete (.argumentWithoutEquals name) htakes
  obtain ⟨h₄, hblanks', htakes⟩ := skipBlanks_complete htakes hc hw
  refine argument_eq_some_iff.2 ⟨h₁, ?_, ?_⟩
  · exact (Head.keyword?_eq_some_iff_word hname).2 ⟨hword, hkeyword.eq_skip⟩
  · refine bind_eq_ok_iff.2 ⟨(), h₂, hblanks, bind_eq_ok_iff.2 ⟨(), h₃, hequals, ?_⟩⟩
    exact bind_eq_ok_iff.2 ⟨(), h₄, hblanks', hv htakes⟩

end Value

namespace Metadata

variable {type : UniformType} {m m' : Metadata} {h k : Head}

theorem one_le_of_components? {n : Nat} (hn : type.components? = some n) : 1 ≤ n := by
  cases type <;> simp only [UniformType.components?, Option.some.injEq, reduceCtorEq] at hn <;>
    omega

theorem le_four_of_components? {n : Nat} (hn : type.components? = some n) : n ≤ 4 := by
  revert n
  cases type <;> decide

theorem readHints_sound {n : Nat} (hn : type.components? = some n) (hh : Utf8.IsText h.rest)
    (hr : readHints n m h = (.ok (some m'), k)) :
    ∃ arg t, ArgumentText type arg t ∧ m' = arg.apply m ∧ h.Takes t k := by
  have hhint {h k : Head} {xs : List Single} (_ : Utf8.IsText h.rest)
      (hr : readHint n h = (.ok xs, k)) : ∃ w, HintText n xs w ∧ h.Takes w k :=
    readHint_sound (one_le_of_components? hn) hr
  unfold readHints at hr
  split at hr
  · simp at hr
  · rename_i values l hl
    simp only [Prod.mk.injEq, Except.ok.injEq, Option.some.injEq] at hr
    obtain ⟨rfl, rfl⟩ := hr
    obtain ⟨w, t, hw, ht, htakes⟩ := Value.argument_sound hhint hh hl
    exact ⟨.mean values, t, .mean hn hw ht, rfl, htakes⟩
  · rename_i l hl
    obtain rfl := Value.eq_of_argument_none hl
    split at hr
    · simp at hr
    · rename_i values l' hl'
      simp only [Prod.mk.injEq, Except.ok.injEq, Option.some.injEq] at hr
      obtain ⟨rfl, rfl⟩ := hr
      obtain ⟨w, t, hw, ht, htakes⟩ := Value.argument_sound hhint hh hl'
      exact ⟨.scale values, t, .scale hn hw ht, rfl, htakes⟩
    · simp at hr

theorem readFile_sound (htype : type.isSampler = true) (hh : Utf8.IsText h.rest)
    (hr : readFile m h = (.ok (some m'), k)) :
    ∃ arg t, ArgumentText type arg t ∧ m' = arg.apply m ∧ h.Takes t k := by
  have hstring {h k : Head} {s : String} (hh : Utf8.IsText h.rest)
      (hr : Value.boundedString (some Limits.pathBytes) h = (.ok s, k)) :
      ∃ w, (s.utf8ByteSize ≤ Limits.pathBytes ∧ QuotedText s w) ∧ h.Takes w k := by
    obtain ⟨hr, hle⟩ := Value.boundedString_eq_ok_iff.1 hr
    obtain ⟨w, hw, htakes⟩ := Value.string_sound hh hr
    exact ⟨w, ⟨hle, hw⟩, htakes⟩
  unfold readFile at hr
  split at hr
  · simp at hr
  · rename_i path l hl
    simp only [Prod.mk.injEq, Except.ok.injEq, Option.some.injEq] at hr
    obtain ⟨rfl, rfl⟩ := hr
    obtain ⟨w, t, ⟨hle, hw⟩, ht, htakes⟩ := Value.argument_sound hstring hh hl
    exact ⟨.file path, t, .file htype hle hw ht, rfl, htakes⟩
  · simp at hr

/-- An argument that is read is one that the type takes. -/
theorem readArgument_sound (hh : Utf8.IsText h.rest)
    (hr : readArgument type m h = (.ok (some m'), k)) :
    ∃ arg t, ArgumentText type arg t ∧ m' = arg.apply m ∧ h.Takes t k := by
  cases hn : type.components? with
  | some n =>
      simp only [readArgument, hn] at hr
      exact readHints_sound hn hh hr
  | none =>
      by_cases hs : type.isSampler = true
      · simp only [readArgument, hn, hs, if_true] at hr
        exact readFile_sound hs hh hr
      · simp [readArgument, hn, hs] at hr

/-- An argument that the type takes is read. -/
theorem readArgument_complete {arg : Argument} {t : List UInt8} (ht : ArgumentText type arg t)
    (htakes : h.Takes t k) (hstop : Stops isLiteral k.rest) :
    readArgument type m h = (.ok (some (arg.apply m)), k) := by
  cases ht with
  | @mean n values w _ hn hw ht =>
      have hread : Value.argument "mean" (readHint n) h = (.ok (some values), k) :=
        Value.argument_complete (by decide) (hw.stops _)
          (fun hl => readHint_complete hw hl hstop) ht htakes
      simp only [readArgument, hn, readHints, hread]
      rfl
  | @scale n values w _ hn hw ht =>
      have hword := Value.word_of_assignedText (by decide) ht htakes
      have hmean : h.keyword? "mean" = none := by
        cases hk : h.keyword? "mean" with
        | none => rfl
        | some l =>
            have hother := ((Head.keyword?_eq_some_iff_word (by decide)).1 hk).1
            exact absurd (hother.symm.trans hword) (by decide)
      have hread : Value.argument "scale" (readHint n) h = (.ok (some values), k) :=
        Value.argument_complete (by decide) (hw.stops _)
          (fun hl => readHint_complete hw hl hstop) ht htakes
      simp only [readArgument, hn, readHints, Value.argument_eq_none hmean, hread]
      rfl
  | @file path w _ htype hpath hw ht =>
      have hn : type.components? = none := by
        cases type <;> simp_all [UniformType.isSampler, UniformType.components?]
      have hread : Value.stringArgument "file" (some Limits.pathBytes) h =
          (.ok (some path), k) :=
        Value.argument_complete (by decide) (hw.stops _)
          (fun hl => Value.boundedString_eq_ok_iff.2 ⟨Value.string_complete hw hl, hpath⟩)
          ht htakes
      simp only [readArgument, hn, htype, if_true, readFile, hread]
      rfl

end Metadata

namespace ArgumentList

variable {first : Bool} {later : ArgumentList} {h k : Head}

/-- A list ends where blanks and the closing parenthesis are taken. -/
theorem next_eq_closed_iff :
    next (.ongoing first false) h = (.ok (false, later), k) ↔
      later = .closed ∧ ∃ b, Blanks b ∧ h.Takes (b ++ [closeParen]) k := by
  have hblanks := Head.takes_skipWhile h isBlank
  rw [next_ongoing]
  constructor
  · intro hn
    split at hn
    · rename_i l hl
      simp only [Prod.mk.injEq, Except.ok.injEq, true_and] at hn
      obtain ⟨rfl, rfl⟩ := hn
      exact ⟨rfl, _, run_takeWhile _ _, hblanks.append (Head.eat?_eq_some_iff.1 hl)⟩
    · split at hn
      · simp at hn
      · split at hn
        · simp at hn
        · simp at hn
  · rintro ⟨rfl, b, hb, hk⟩
    have htakes := hk.skipBlanks hb (stops_cons.2 (by decide))
    rw [Head.eat?_eq_some_iff.2 htakes]

/-- A further item stands behind blanks, and behind a comma as well unless it is
the first one. -/
theorem next_sound (hn : next (.ongoing first false) h = (.ok (true, later), k)) :
    later = .ongoing false false ∧
      ∃ b, Blanks b ∧ ((first = true ∧ h.Takes b k) ∨
        (first = false ∧ ∃ c, Blanks c ∧ h.Takes (b ++ (comma :: c)) k)) := by
  have hblanks := Head.takes_skipWhile h isBlank
  rw [next_ongoing] at hn
  split at hn
  · simp at hn
  · split at hn
    · rename_i hfirst
      simp only [Prod.mk.injEq, Except.ok.injEq, true_and] at hn
      obtain ⟨rfl, rfl⟩ := hn
      exact ⟨rfl, _, run_takeWhile _ _, Or.inl ⟨hfirst, hblanks⟩⟩
    · rename_i hfirst
      split at hn
      · rename_i l hl
        simp only [Prod.mk.injEq, Except.ok.injEq, true_and] at hn
        obtain ⟨rfl, rfl⟩ := hn
        refine ⟨rfl, _, run_takeWhile isBlank h.rest, Or.inr ⟨by simpa using hfirst, _,
          run_takeWhile isBlank l.rest, ?_⟩⟩
        exact hblanks.append ((Head.eat?_eq_some_iff.1 hl).append (Head.takes_skipWhile l isBlank))
      · simp at hn

theorem next_first_complete {b w : List UInt8} {l : Head} (hb : Blanks b)
    (hk : h.Takes (b ++ w) l) (hblank : Stops isBlank (w ++ l.rest))
    (hclose : Stops (· == closeParen) (w ++ l.rest)) :
    ∃ k, next (.ongoing true false) h = (.ok (true, .ongoing false false), k) ∧ k.Takes w l := by
  have htakes := hk.skipBlanks hb hblank
  refine ⟨h.skipBlanks, ?_, htakes⟩
  have hnone : h.skipBlanks.eat? closeParen = none :=
    Head.eat?_eq_none (by rw [htakes.rest_eq]; exact hclose)
  simp [next_ongoing, hnone]

theorem next_more_complete {b c w : List UInt8} {l : Head} (hb : Blanks b) (hc : Blanks c)
    (hk : h.Takes (b ++ (comma :: (c ++ w))) l) (hblank : Stops isBlank (w ++ l.rest)) :
    ∃ k, next (.ongoing false false) h = (.ok (true, .ongoing false false), k) ∧
      k.Takes w l := by
  have htakes := hk.skipBlanks hb (stops_cons.2 (by decide))
  obtain ⟨m, hm, hrest⟩ := htakes.eat?
  have hnone : h.skipBlanks.eat? closeParen = none :=
    Head.eat?_eq_none (by rw [htakes.rest_eq]; exact stops_cons.2 (by decide))
  exact ⟨m.skipBlanks, by simp [next_ongoing, hnone, hm], hrest.skipBlanks hc hblank⟩

end ArgumentList

namespace Metadata

variable {type : UniformType} {m m' : Metadata} {h k l : Head} {list later : ArgumentList}

/-! One turn of the loop, for each way in which it can go on. -/

theorem readArguments_of_closed (hn : list.next h = (.ok (false, .closed), k)) :
    readArguments type list m h = (.ok m, k) := by
  rw [readArguments]
  split
  · rename_i heq
    rw [hn] at heq
    simp at heq
  · rename_i heq
    rw [hn] at heq
    simp only [Prod.mk.injEq, Except.ok.injEq, true_and] at heq
    obtain ⟨rfl, rfl⟩ := heq
    rfl
  · rename_i heq
    rw [hn] at heq
    simp at heq

theorem readArguments_of_item (hn : list.next h = (.ok (true, later), k))
    (hr : readArgument type m k = (.ok (some m'), l)) :
    readArguments type list m h = readArguments type later m' l := by
  rw [readArguments]
  split
  · rename_i heq
    rw [hn] at heq
    simp at heq
  · rename_i heq
    rw [hn] at heq
    simp at heq
  · rename_i heq
    rw [hn] at heq
    simp only [Prod.mk.injEq, Except.ok.injEq, true_and] at heq
    obtain ⟨rfl, rfl⟩ := heq
    split
    · rename_i heq'
      rw [hr] at heq'
      simp at heq'
    · rename_i heq'
      rw [hr] at heq'
      simp only [Prod.mk.injEq, Except.ok.injEq, Option.some.injEq] at heq'
      obtain ⟨rfl, rfl⟩ := heq'
      rfl
    · rename_i heq'
      rw [hr] at heq'
      simp at heq'

/-- A flagged list is refused on its next turn. -/
theorem readArguments_flagged (first : Bool) :
    readArguments type (.ongoing first true) m h = (.error ⟨h.pos, .argumentUnknown⟩, h) := by
  rw [readArguments]
  rfl

/-- What the loop accepts is what is left of a list. -/
theorem readArguments_sound {first : Bool} (hh : Utf8.IsText h.rest)
    (hr : readArguments type (.ongoing first false) m h = (.ok m', k)) :
    ∃ args t, RemainderText (ArgumentText type) first args t ∧
      m' = args.foldl Argument.apply m ∧ h.Takes t k := by
  generalize hlist : ArgumentList.ongoing first false = list at hr
  fun_induction readArguments type list m h generalizing first with
  | case1 list m h e k' hn => simp at hr
  | case2 list m h later k' hn e l hf => simp at hr
  | case3 list m h later k' hn u l hf =>
      subst hlist
      obtain ⟨rfl, b, hb, htakes⟩ := ArgumentList.next_eq_closed_iff.1 hn
      simp only [Prod.mk.injEq, Except.ok.injEq] at hr
      obtain ⟨rfl, rfl⟩ := hr
      obtain rfl : k' = l := (Prod.mk.inj hf).2
      refine ⟨[], _, ?_, rfl, htakes⟩
      cases first with
      | true => exact .empty hb
      | false => exact .close hb
  | case4 list m h later k' hn e l hr' => simp at hr
  | case5 list m h later k' hn updated l hr' ih =>
      subst hlist
      have hmeets := ((ArgumentList.keepsText_next _).lands hh hn).1
      have hmeets' := ((keepsText_readArgument type m).lands hmeets.2 hr').1
      obtain ⟨arg, w, hw, rfl, htakes⟩ := readArgument_sound hmeets.2 hr'
      obtain ⟨rfl, b, hb, hbefore⟩ := ArgumentList.next_sound hn
      obtain ⟨args, t, ht, rfl, hrest⟩ := ih hmeets'.2 rfl hr
      rcases hbefore with ⟨rfl, htakes'⟩ | ⟨rfl, c, hc, htakes'⟩
      · exact ⟨arg :: args, _, ListText.items hb hw ht, rfl,
          htakes'.append (htakes.append hrest)⟩
      · refine ⟨arg :: args, _, MoreText.item hb hc hw ht, rfl, ?_⟩
        have hall := htakes'.append (htakes.append hrest)
        rwa [List.append_assoc, List.cons_append] at hall
  | case6 list m h later k' hn l hr' ih =>
      subst hlist
      obtain ⟨rfl, -⟩ := ArgumentList.next_sound hn
      rw [ArgumentList.flag, readArguments_flagged] at hr
      simp at hr

theorem readArguments_more_complete {args : List Argument} {t : List UInt8}
    (ht : MoreText (ArgumentText type) args t) (htakes : h.Takes t k) :
    readArguments type (.ongoing false false) m h = (.ok (args.foldl Argument.apply m), k) := by
  induction ht generalizing m h with
  | close hb =>
      exact readArguments_of_closed (ArgumentList.next_eq_closed_iff.2 ⟨rfl, _, hb, htakes⟩)
  | @item b c w t arg args hb hc hw ht ih =>
      obtain ⟨h₁, hn, htakes⟩ := ArgumentList.next_more_complete hb hc htakes
        (by rw [List.append_assoc]; exact (isItem_argumentText type).stops hw _)
      obtain ⟨h₂, hw', htakes⟩ := htakes.split
      have hstop : Stops isLiteral h₂.rest := by
        rw [htakes.rest_eq]
        exact ht.stops _
      rw [readArguments_of_item hn (readArgument_complete hw hw' hstop), ih htakes]
      rfl

theorem readArguments_complete {args : List Argument} {t : List UInt8}
    (ht : ListText (ArgumentText type) args (openParen :: t)) (htakes : h.Takes t k) :
    readArguments type (.ongoing true false) m h = (.ok (args.foldl Argument.apply m), k) := by
  cases ht with
  | empty hb =>
      exact readArguments_of_closed (ArgumentList.next_eq_closed_iff.2 ⟨rfl, _, hb, htakes⟩)
  | @items b w t arg args hb hw ht =>
      obtain ⟨a, hhead, hblank, hclose⟩ := isItem_argumentText type arg w hw
      obtain ⟨as, rfl⟩ := List.head?_eq_some_iff.1 hhead
      obtain ⟨h₁, hn, htakes⟩ := ArgumentList.next_first_complete hb htakes
        (stops_cons.2 hblank) (stops_cons.2 (by simpa using hclose))
      obtain ⟨h₂, hw', htakes⟩ := htakes.split
      have hstop : Stops isLiteral h₂.rest := by
        rw [htakes.rest_eq]
        exact ht.stops _
      rw [readArguments_of_item hn (readArgument_complete hw hw' hstop),
        readArguments_more_complete ht htakes]
      rfl

/-- What is read as a list of arguments is one. -/
theorem read_sound (hh : Utf8.IsText h.rest) (hr : read type h = (.ok m, k)) :
    ∃ args w, ListText (ArgumentText type) args w ∧
      m = args.foldl Argument.apply .default ∧ h.Takes w k := by
  unfold read at hr
  split at hr
  · simp at hr
  · rename_i list l hl
    have hmeets := (ArgumentList.keepsText_begin.lands hh hl).1
    obtain ⟨_, l', hopened, hl⟩ := bind_eq_ok_iff.1 hl
    obtain ⟨rfl, rfl⟩ := pure_eq_ok_iff.1 hl
    obtain ⟨args, t, ht, hm, htakes⟩ := readArguments_sound hmeets.2 hr
    exact ⟨args, _, ht, hm, (expect_eq_ok_iff.1 hopened).append htakes⟩

/-- A list of arguments is read where one stands. -/
theorem read_complete {args : List Argument} {w : List UInt8}
    (hw : ListText (ArgumentText type) args w) (htakes : h.Takes w k) :
    read type h = (.ok (args.foldl Argument.apply .default), k) := by
  obtain ⟨t, rfl⟩ := hw.opens
  obtain ⟨l, hl, htakes⟩ := expect_complete .listUnopened htakes
  have hbegin : ArgumentList.begin h = (.ok (.ongoing true false), l) :=
    bind_eq_ok_iff.2 ⟨(), l, hl, rfl⟩
  rw [read, hbegin]
  exact readArguments_complete hw htakes

end Metadata

end UniformBlock
