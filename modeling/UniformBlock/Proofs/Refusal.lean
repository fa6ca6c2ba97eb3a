import UniformBlock.Proofs.Cause

/-!
# What a fault says about a text

The grammar of refused declarations: `Refused declared text offset cause` says what
stands in the text behind a word `uniform` when reading it ends in a fault with the
given cause at the given offset. A fault in an argument list depends on the type of
the declaration. An argument that the type does not take is reported where it
begins, behind the opening parenthesis or a comma and blanks (`ItemFront`).

Some causes never occur. A list is only begun in front of its parenthesis, and a
list that was flagged fails on its next turn, so that it is never ended. The others
belong to values that no argument has.
-/

namespace UniformBlock

open Ascii Grammar Reading

namespace Grammar

variable {α : Type}

/-- What stands in front of an item of a list, behind the given items: the opening
parenthesis or a comma, and blanks. -/
inductive ItemFront (ItemText : α → List UInt8 → Prop) : List α → List UInt8 → Prop
  | first {b : List UInt8} (hb : Blanks b) : ItemFront ItemText [] (openParen :: b)
  | later {as : List α} {a : α} {u w b c : List UInt8} (hu : ItemFront ItemText as u)
      (ha : ItemText a w) (hb : Blanks b) (hc : Blanks c) :
      ItemFront ItemText (as ++ [a]) (u ++ (w ++ (b ++ (comma :: c))))

/-- A list of arguments that is refused at the given offset. -/
inductive ListRefused (type : UniformType) : List UInt8 → Nat → Cause → Prop
  /-- An item begins that is none of the arguments that the type takes. -/
  | unknown {args : List Argument} {u rest : List UInt8}
      (hu : ItemFront (ArgumentText type) args u) (hblank : Stops isBlank rest)
      (hitem : args = [] → Stops (· == closeParen) rest)
      (hname : ∀ name ∈ type.argumentNames, rest.takeWhile isWord ≠ Utf8.bytes name) :
      ListRefused type (u ++ rest) u.length .argumentUnknown
  /-- Neither a comma nor the closing parenthesis follows an argument. -/
  | unseparated {args : List Argument} {arg : Argument} {u w b rest : List UInt8}
      (hu : ItemFront (ArgumentText type) args u) (harg : ArgumentText type arg w)
      (hb : Blanks b) (hblank : Stops isBlank rest) (hcomma : Stops (· == comma) rest)
      (hclose : Stops (· == closeParen) rest) :
      ListRefused type (u ++ (w ++ (b ++ rest))) (u ++ (w ++ b)).length .listUnseparated
  /-- An argument that the type takes has a fault. -/
  | argument {args : List Argument} {u rest : List UInt8} {name : String} {offset : Nat}
      {cause : Cause} (hu : ItemFront (ArgumentText type) args u)
      (hname : name ∈ type.argumentNames) (hword : rest.takeWhile isWord = Utf8.bytes name)
      (hoffset : u.length ≤ offset) (hcause : ArgumentCause type cause) :
      ListRefused type (u ++ rest) offset cause

/-- The type and the name of a declaration, in front of its metadata. -/
inductive FrontText (type : UniformType) : List UInt8 → Prop
  | mk {name : String} {b c d : List UInt8} (hb : Blanks b) (hb' : b ≠ []) (hc : Blanks c)
      (hc' : c ≠ []) (hname : NameText name) (hd : Blanks d) :
      FrontText type (b ++ (Utf8.bytes type.keyword ++ (c ++ (Utf8.bytes name ++ d))))

/-- A name that is refused where it begins. -/
inductive NameRefused : List UInt8 → Cause → Prop
  | missing {rest : List UInt8} (hrest : Stops isWord rest) : NameRefused rest .nameMissing
  | ends {w : List UInt8} (hw : Run isWord w) (hne : w ≠ []) : NameRefused w .sourceEnds
  | long {w rest : List UInt8} (hw : Run isWord w) (hrest : Stops isWord rest)
      (hne : rest ≠ []) (hlong : Limits.nameBytes < w.length) :
      NameRefused (w ++ rest) (.nameTooLong w.length Limits.nameBytes)

/-- The text behind a word `uniform` that is refused at the given offset, where
`declared` declarations come before it. -/
inductive Refused (declared : Nat) : List UInt8 → Nat → Cause → Prop
  | full {text : List UInt8} (hfull : Limits.uniforms ≤ declared) :
      Refused declared text 0 (.tooManyUniforms Limits.uniforms)
  | type {b rest : List UInt8} (hb : Blanks b) (hblank : Stops isBlank rest)
      (hword : ∀ t : UniformType, rest.takeWhile isWord ≠ Utf8.bytes t.keyword) :
      Refused declared (b ++ rest) b.length .typeUnknown
  | name {type : UniformType} {b c rest : List UInt8} {cause : Cause} (hb : Blanks b)
      (hb' : b ≠ []) (hc : Blanks c) (hblank : Stops isBlank rest)
      (hname : NameRefused rest cause) :
      Refused declared (b ++ (Utf8.bytes type.keyword ++ (c ++ rest)))
        (b ++ (Utf8.bytes type.keyword ++ c)).length cause
  | metadata {type : UniformType} {front list : List UInt8} {offset : Nat} {cause : Cause}
      (hfront : FrontText type front) (hcause : MetadataCause type cause)
      (hlist : ListRefused type list offset cause) :
      Refused declared (front ++ list) (front.length + offset) cause
  | terminator {type : UniformType} {m : Metadata} {front w rest : List UInt8}
      (hfront : FrontText type front) (hw : MetadataText type m w) (hblank : Stops isBlank rest)
      (hend : Stops (· == semicolon) rest) :
      Refused declared (front ++ (w ++ rest)) (front ++ w).length .declarationUnterminated

end Grammar

namespace Head

variable {h k : Head}

theorem stops_of_eat?_eq_none {b : UInt8} (he : h.eat? b = none) : Stops (· == b) h.rest := by
  intro a ha
  rw [beq_eq_false_iff_ne]
  rintro rfl
  rw [eat?, if_pos (Option.mem_def.1 ha)] at he
  cases he

end Head

/-! ## Argument lists -/

namespace Grammar

/-- What has been read of a list when its next item is looked for: the opening
parenthesis, or an item. -/
inductive Consumed {α : Type} (ItemText : α → List UInt8 → Prop) :
    Bool → List α → List UInt8 → Prop
  | opened : Consumed ItemText true [] [openParen]
  | item {as : List α} {a : α} {u w : List UInt8} (hu : ItemFront ItemText as u)
      (ha : ItemText a w) : Consumed ItemText false (as ++ [a]) (u ++ w)

theorem ArgumentText.argumentNames_ne_nil {type : UniformType} {arg : Argument} {w : List UInt8}
    (h : ArgumentText type arg w) : type.argumentNames ≠ [] := by
  cases h with
  | mean hn hw ht => simp [UniformType.argumentNames, hn]
  | scale hn hw ht => simp [UniformType.argumentNames, hn]
  | file htype hpath hw ht =>
      rw [UniformType.argumentNames, if_pos htype]
      split <;> simp

theorem ListRefused.metadataCause {type : UniformType} {list : List UInt8} {offset : Nat}
    {cause : Cause} (h : ListRefused type list offset cause) : MetadataCause type cause := by
  cases h with
  | unknown hu hblank hitem hname => exact .unknown
  | unseparated hu harg hb hblank hcomma hclose => exact .unseparated harg.argumentNames_ne_nil
  | argument hu hname hword hoffset hcause => exact .argument (List.ne_nil_of_mem hname) hcause

end Grammar

namespace ArgumentList

variable {first : Bool} {later : ArgumentList} {h k l : Head} {e : Fault}

/-- Only a separator can be missing. -/
theorem next_eq_error (hn : next (.ongoing first false) h = (.error e, k)) :
    first = false ∧ e = ⟨k.pos, .listUnseparated⟩ ∧ Stops (· == comma) k.rest ∧
      Stops (· == closeParen) k.rest ∧ k = h.skipBlanks := by
  rw [next_ongoing] at hn
  split at hn
  · simp at hn
  · rename_i hclose
    split at hn
    · simp at hn
    · rename_i hfirst
      split at hn
      · simp at hn
      · rename_i hcomma
        simp only [Prod.mk.injEq, Except.error.injEq] at hn
        obtain ⟨rfl, rfl⟩ := hn
        exact ⟨by simpa using hfirst, rfl, Head.stops_of_eat?_eq_none hcomma,
          Head.stops_of_eat?_eq_none hclose, rfl⟩

/-- An item is looked for behind all blanks, and a first item is none if the list
ends there. -/
theorem stops_of_next (hn : next (.ongoing first false) h = (.ok (true, later), k)) :
    Stops isBlank k.rest ∧ (first = true → Stops (· == closeParen) k.rest) := by
  rw [next_ongoing] at hn
  split at hn
  · simp at hn
  · rename_i hclose
    split at hn
    · simp only [Prod.mk.injEq] at hn
      rw [← hn.2]
      exact ⟨Head.stops_rest_skipWhile h isBlank, fun _ => Head.stops_of_eat?_eq_none hclose⟩
    · rename_i hfirst
      split at hn
      · rename_i m hm
        simp only [Prod.mk.injEq] at hn
        rw [← hn.2]
        exact ⟨Head.stops_rest_skipWhile m isBlank, fun h => absurd h hfirst⟩
      · simp at hn

/-- Looking for the next item comes to its front. -/
theorem itemFront_of_next {α : Type} {ItemText : α → List UInt8 → Prop} {as : List α}
    {u : List UInt8} (hu : Consumed ItemText first as u) (hh : l.Takes u h)
    (hn : next (.ongoing first false) h = (.ok (true, later), k)) :
    ∃ v, ItemFront ItemText as v ∧ l.Takes v k ∧ (as = [] → Stops (· == closeParen) k.rest) := by
  obtain ⟨-, b, hb, hbefore⟩ := next_sound hn
  cases hu with
  | opened =>
      rcases hbefore with ⟨-, htakes⟩ | ⟨hfirst, -⟩
      · exact ⟨_, .first hb, hh.append htakes, fun _ => (stops_of_next hn).2 rfl⟩
      · cases hfirst
  | item hu ha =>
      rcases hbefore with ⟨hfirst, -⟩ | ⟨-, c, hc, htakes⟩
      · cases hfirst
      · refine ⟨_, .later hu ha hb hc, ?_, fun hnil => by simp at hnil⟩
        have hall := hh.append htakes
        rwa [List.append_assoc] at hall

end ArgumentList

namespace Metadata

variable {type : UniformType} {m : Metadata} {h k l : Head} {e : Fault}

/-- How the loop over a list fails. The list begins at the head `l`. -/
theorem readArguments_eq_error {first : Bool} {args : List Argument} {u : List UInt8}
    (hu : Consumed (ArgumentText type) first args u) (hl : l.Takes u h)
    (hh : Utf8.IsText h.rest)
    (hr : readArguments type (.ongoing first false) m h = (.error e, k)) :
    ∃ offset, e.offset = l.pos + offset ∧ ListRefused type l.rest offset e.cause := by
  generalize hlist : ArgumentList.ongoing first false = list at hr
  fun_induction readArguments type list m h generalizing first args u with
  | case1 list m h e' k' hn =>
      subst hlist
      obtain ⟨rfl, -⟩ : e' = e ∧ k' = k := by simpa using hr
      obtain ⟨rfl, rfl, hcomma, hclose, rfl⟩ := ArgumentList.next_eq_error hn
      have hblanks := Head.takes_skipWhile h isBlank
      have hstop := Head.stops_rest_skipWhile h isBlank
      cases hu with
      | @item as a u w hu ha =>
          have hall := (hl.append hblanks).pos_eq
          have hrest := (hl.append hblanks).rest_eq
          rw [List.append_assoc] at hall
          rw [List.append_assoc, List.append_assoc] at hrest
          refine ⟨_, hall, ?_⟩
          rw [hrest]
          exact .unseparated hu ha (run_takeWhile _ _) hstop hcomma hclose
  | case2 list m h later k' hn e' l' hf =>
      subst hlist
      obtain ⟨rfl, -⟩ := ArgumentList.next_eq_closed_iff.1 hn
      simp [ArgumentList.finish] at hf
  | case3 list m h later k' hn u' l' hf => simp at hr
  | case4 list m h later k' hn e' l' hr' =>
      subst hlist
      obtain ⟨rfl, -⟩ : e' = e ∧ l' = k := by simpa using hr
      obtain ⟨v, hv, htakes, -⟩ := ArgumentList.itemFront_of_next hu hl hn
      obtain ⟨⟨name, hname, hword⟩, hcause⟩ := readArgument_eq_error hr'
      have hmeets := ((ArgumentList.keepsText_next _).lands hh hn).1
      obtain ⟨n, hn', hoffset⟩ := ((keepsText_readArgument type m).lands hmeets.2 hr').2 e' rfl
      have hle := hn'.reaches.pos_le
      rw [htakes.pos_eq] at hle
      refine ⟨e'.offset - l.pos, by omega, ?_⟩
      rw [htakes.rest_eq]
      exact .argument hv hname hword (by omega) hcause
  | case5 list m h later k' hn updated l' hr' ih =>
      subst hlist
      obtain ⟨v, hv, htakes, -⟩ := ArgumentList.itemFront_of_next hu hl hn
      have hmeets := ((ArgumentList.keepsText_next _).lands hh hn).1
      have hmeets' := ((keepsText_readArgument type m).lands hmeets.2 hr').1
      obtain ⟨arg, w, hw, -, htakes'⟩ := readArgument_sound hmeets.2 hr'
      obtain ⟨rfl, -⟩ := ArgumentList.next_sound hn
      exact ih (.item hv hw) (htakes.append htakes') hmeets'.2 rfl hr
  | case6 list m h later k' hn l' hr' ih =>
      subst hlist
      obtain ⟨v, hv, htakes, hclose⟩ := ArgumentList.itemFront_of_next hu hl hn
      obtain ⟨rfl, -⟩ := ArgumentList.next_sound hn
      have hnames := word_ne_of_readArgument_none hr'
      obtain rfl := eq_of_readArgument_none hr'
      rw [ArgumentList.flag, readArguments_flagged] at hr
      obtain ⟨rfl, -⟩ : ⟨_, .argumentUnknown⟩ = e ∧ _ = k := by simpa using hr
      refine ⟨v.length, htakes.pos_eq, ?_⟩
      rw [htakes.rest_eq]
      exact .unknown hv (ArgumentList.stops_of_next hn).1 hclose hnames

/-- How a list fails that begins with its parenthesis. -/
theorem read_eq_error (hh : Utf8.IsText h.rest) (hpeek : h.peek? = some openParen)
    (hr : read type h = (.error e, k)) :
    ∃ offset, e.offset = h.pos + offset ∧ ListRefused type h.rest offset e.cause := by
  obtain ⟨l, hl⟩ : ∃ l, h.eat? openParen = some l := ⟨_, if_pos hpeek⟩
  have hbegin : ArgumentList.begin h = (.ok (.ongoing true false), l) :=
    bind_eq_ok_iff.2 ⟨(), l, by rw [expect, hl], rfl⟩
  rw [read, hbegin] at hr
  exact readArguments_eq_error .opened (Head.eat?_eq_some_iff.1 hl)
    (Head.meets_of_eat? (by decide) hl hh).2 hr

end Metadata

/-! ## Declarations -/

namespace Declaration

variable {h k : Head} {e : Fault}

theorem readType_eq_error (hr : readType h = (.error e, k)) :
    e = ⟨h.pos, .typeUnknown⟩ ∧ ∀ t : UniformType, h.word ≠ Utf8.bytes t.keyword := by
  refine ⟨?_, fun t hword => ?_⟩
  · unfold readType at hr
    split at hr
    · simp at hr
    · simp only [Prod.mk.injEq, Except.error.injEq] at hr
      exact hr.1.symm
  · have hk := Head.keyword?_eq_some_iff.1
      ((Head.keyword?_eq_some_iff_word t.run_keyword).2 ⟨hword, rfl⟩)
    rw [readType_eq_ok_iff.2 hk] at hr
    simp at hr

theorem readName_eq_error (hr : readName h = (.error e, k)) :
    e.offset = h.pos ∧ NameRefused h.rest e.cause := by
  have htakes : h.Takes h.word h.takeWord.2 := Head.takes_skipWhile h isWord
  have hstops : Stops isWord h.takeWord.2.rest := Head.stops_rest_skipWhile h isWord
  have hrun : Run isWord h.word := run_takeWhile isWord h.rest
  have hrest := htakes.rest_eq
  unfold readName at hr
  simp only at hr
  split at hr
  · rename_i hzero
    obtain ⟨rfl, -⟩ : ⟨h.pos, .nameMissing⟩ = e ∧ _ = k := by simpa using hr
    rw [List.length_eq_zero_iff.1 hzero, List.nil_append] at hrest
    exact ⟨rfl, .missing (hrest ▸ hstops)⟩
  · rename_i hpos
    split at hr
    · rename_i hend
      obtain ⟨rfl, -⟩ : ⟨h.pos, .sourceEnds⟩ = e ∧ _ = k := by simpa using hr
      rw [List.isEmpty_iff.1 hend, List.append_nil] at hrest
      rw [hrest]
      exact ⟨rfl, .ends hrun fun hnil => hpos (by rw [hnil, List.length_nil])⟩
    · rename_i hend
      split at hr
      · rename_i hlong
        obtain ⟨rfl, -⟩ : ⟨h.pos, .nameTooLong h.word.length Limits.nameBytes⟩ = e ∧ _ = k := by
          simpa using hr
        rw [hrest]
        refine ⟨rfl, .long hrun hstops (fun hnil => hend ?_) hlong⟩
        rw [Head.atEnd, hnil, List.isEmpty_nil]
      · simp at hr

theorem frontText_append {type : UniformType} {front b : List UInt8}
    (hfront : FrontText type front) (hb : Blanks b) : FrontText type (front ++ b) := by
  obtain @⟨name, b', c, d, hb', hne, hc, hne', hname, hd⟩ := hfront
  simp only [List.append_assoc]
  exact .mk hb' hne hc hne' hname (run_append hd hb)

/-- How reading fails behind the name of a declaration that begins at the head
`l`. -/
theorem readEnd_eq_error {declared : Nat} {type : UniformType} {name : String}
    {front : List UInt8} {l : Head} (hfront : FrontText type front) (hl : l.Takes front h)
    (hh : Utf8.IsText h.rest)
    (hr : (do
      let metadata ← readMetadata type
      skipBlanks
      expect semicolon .declarationUnterminated
      pure (⟨type, name, metadata⟩ : Declaration)) h = (.error e, k)) :
    ∃ offset, e.offset = l.pos + offset ∧ Refused declared l.rest offset e.cause := by
  rcases bind_eq_error_iff.1 hr with hr | ⟨m, h₁, hr₁, hr⟩
  · unfold readMetadata at hr
    split at hr
    · rename_i hpeek
      obtain ⟨offset, hoffset, hlist⟩ := Metadata.read_eq_error hh hpeek hr
      refine ⟨front.length + offset, by rw [hoffset, hl.pos_eq, Nat.add_assoc], ?_⟩
      rw [hl.rest_eq]
      exact .metadata hfront hlist.metadataCause hlist
    · simp at hr
  · rcases bind_eq_error_iff.1 hr with hr | ⟨_, h₂, hr₂, hr⟩
    · simp [skipBlanks] at hr
    obtain ⟨b, hb, ht₂, hblank⟩ := skipBlanks_eq_ok_iff.1 hr₂
    rcases bind_eq_error_iff.1 hr with hr | ⟨_, h₃, -, hr⟩
    · obtain ⟨heat, rfl, -⟩ := expect_eq_error_iff.1 hr
      have hend := Head.stops_of_eat?_eq_none heat
      rcases readMetadata_sound hh hr₁ with ⟨-, rfl⟩ | ⟨args, w, hw, -, ht₁⟩
      · -- without a list the blanks in front of its place are one run
        have hall := hl.append ht₂
        refine ⟨_, hall.pos_eq, ?_⟩
        rw [hall.rest_eq, ← List.append_nil (front ++ b), List.append_assoc _ []]
        exact .terminator (frontText_append hfront hb) .none hblank hend
      · have hall := hl.append (ht₁.append ht₂)
        refine ⟨_, hall.pos_eq, ?_⟩
        rw [hall.rest_eq, List.append_assoc front]
        exact .terminator hfront (.list hw hb) hblank hend
    · simp at hr

theorem read_eq_error {declared : Nat} (hh : Utf8.IsText h.rest) (hstop : Stops isWord h.rest)
    (hr : read declared h = (.error e, k)) :
    ∃ offset, e.offset = h.pos + offset ∧ Refused declared h.rest offset e.cause := by
  unfold read at hr
  split at hr
  · rename_i hfull
    obtain ⟨rfl, -⟩ : ⟨h.pos, .tooManyUniforms Limits.uniforms⟩ = e ∧ _ = k := by
      simpa [Reading.fail] using hr
    exact ⟨0, rfl, .full hfull⟩
  · rcases bind_eq_error_iff.1 hr with hr | ⟨_, h₁, hr₁, hr⟩
    · simp [skipBlanks] at hr
    obtain ⟨b, hb, ht₁, hblank₁⟩ := skipBlanks_eq_ok_iff.1 hr₁
    rcases bind_eq_error_iff.1 hr with hr | ⟨type, h₂, hr₂, hr⟩
    · obtain ⟨rfl, hword⟩ := readType_eq_error hr
      refine ⟨b.length, ht₁.pos_eq, ?_⟩
      rw [ht₁.rest_eq]
      exact .type hb hblank₁ hword
    obtain ⟨ht₂, hstop₂⟩ := readType_eq_ok_iff.1 hr₂
    have hb' : b ≠ [] := by
      rw [ht₁.rest_eq, ht₂.rest_eq] at hstop
      exact ne_nil_of_stops_isWord hstop type.run_keyword type.keyword_ne_nil
    rcases bind_eq_error_iff.1 hr with hr | ⟨_, h₃, hr₃, hr⟩
    · simp [skipBlanks] at hr
    obtain ⟨c, hc, ht₃, hblank₃⟩ := skipBlanks_eq_ok_iff.1 hr₃
    rcases bind_eq_error_iff.1 hr with hr | ⟨name, h₄, hr₄, hr⟩
    · obtain ⟨hoffset, hname⟩ := readName_eq_error hr
      have hall := ht₁.append (ht₂.append ht₃)
      refine ⟨_, hoffset.trans hall.pos_eq, ?_⟩
      rw [hall.rest_eq, List.append_assoc, List.append_assoc]
      exact .name hb hb' hc hblank₃ hname
    obtain ⟨hname, ht₄, -, -⟩ := readName_eq_ok_iff.1 hr₄
    have hc' : c ≠ [] := by
      rw [ht₃.rest_eq, ht₄.rest_eq] at hstop₂
      exact ne_nil_of_stops_isWord hstop₂ hname.word (List.ne_nil_of_length_pos hname.pos)
    rcases bind_eq_error_iff.1 hr with hr | ⟨_, h₅, hr₅, hr⟩
    · simp [skipBlanks] at hr
    obtain ⟨d, hd, ht₅, -⟩ := skipBlanks_eq_ok_iff.1 hr₅
    have hh₅ : Utf8.IsText h₅.rest := by
      have hh₁ := (keepsText_skipBlanks.lands hh hr₁).1.2
      have hh₂ := (keepsText_readType.lands hh₁ hr₂).1.2
      have hh₃ := (keepsText_skipBlanks.lands hh₂ hr₃).1.2
      have hh₄ := (keepsText_readName.lands hh₃ hr₄).1.2
      exact (keepsText_skipBlanks.lands hh₄ hr₅).1.2
    exact readEnd_eq_error (.mk hb hb' hc hc' hname hd)
      (ht₁.append (ht₂.append (ht₃.append (ht₄.append ht₅)))) hh₅ hr

end Declaration

/-! ## Documents -/

namespace Grammar

/-- The causes that no text leads to. -/
def unreachableCauses : List Cause :=
  [.notAnInteger, .notABoolean, .angleWithoutUnit, .listUnopened, .listFlagged]

theorem ArgumentCause.not_mem {type : UniformType} {cause : Cause} (h : ArgumentCause type cause) :
    cause ∉ unreachableCauses := by
  intro hmem
  simp only [unreachableCauses, List.mem_cons, List.not_mem_nil, or_false] at hmem
  cases h with
  | equals hname => simp at hmem
  | hint hn hcause => rcases hmem with rfl | rfl | rfl | rfl | rfl <;> exact hcause
  | path htype hcause => rcases hmem with rfl | rfl | rfl | rfl | rfl <;> exact hcause

theorem Refused.not_mem {declared offset : Nat} {text : List UInt8} {cause : Cause}
    (h : Refused declared text offset cause) : cause ∉ unreachableCauses := by
  cases h with
  | full hfull => decide
  | type hb hblank hword => decide
  | name hb hb' hc hblank hname =>
      cases hname with
      | missing hrest => decide
      | ends hw hne => decide
      | long hw hrest hne hlong => simp [unreachableCauses]
  | metadata hfront hcause hlist =>
      cases hcause with
      | unknown => decide
      | unseparated hnames => decide
      | argument hnames hcause => exact hcause.not_mem
  | terminator hfront hw hblank hend => decide

end Grammar

namespace Document

/-- Every fault of a document belongs to a declaration behind which the
decomposition does not go, and says what is wrong with its text. -/
theorem refused_of_scan {s : String} {b : Block} {e : Fault}
    (h : scan (.ofString s) = .ok ⟨b, some e⟩) :
    e.cause ∉ unreachableCauses ∧
      ∃ before after offset, Utf8.bytes s = before ++ (Utf8.bytes declarationKeyword ++ after) ∧
        Decomposes before (b.uniforms.map Uniform.declaration)
          (Utf8.bytes declarationKeyword ++ after) ∧
        e.offset = (before ++ Utf8.bytes declarationKeyword).length + offset ∧
        Refused b.size after offset e.cause := by
  have hfault := (scan_eq_ok_iff.1 h).2
  have hdeclarations := (spec_of_scan h).2.1
  have hending : Ending (.ofString s) (read (.ofString s)) := ending_read (Utf8.isText_bytes s)
  generalize read (.ofString s) = contents at hending hfault hdeclarations
  cases hending with
  | complete hd => cases hfault
  | @fault before ds l k m e' hd hh hk hstop hr =>
      obtain rfl := Option.some.inj hfault
      have hdeclarations : b.uniforms.map Uniform.declaration = ds := hdeclarations
      have hsize : b.size = ds.length := by
        rw [← hdeclarations, List.length_map, Block.size]
      have hbytes : Utf8.bytes s = before ++ l.rest := hh.rest_eq
      have htext : Utf8.IsText l.rest := hd.isText (hbytes ▸ Utf8.isText_bytes s)
      have hktext := hk.isText_rest (Utf8.isText_bytes _) htext
      obtain ⟨offset, hoffset, hrefused⟩ := Declaration.read_eq_error hktext hstop hr
      rw [hk.rest_eq] at hbytes hd
      refine ⟨hrefused.not_mem, before, k.rest, offset, hbytes, ?_, ?_, ?_⟩
      · rw [hdeclarations]
        exact hd
      · rw [hoffset, (hh.append hk).pos_eq]
        exact congrArg (· + offset) (Nat.zero_add _)
      · rw [hsize]
        exact hrefused

/-- The third item of the list is not known; the fault is where it begins. -/
theorem refused_unknown :
    ∃ before after offset,
      Utf8.bytes "uniform vec2 v (mean=(1,2), scale=(3,4),  x=5);" =
        before ++ (Utf8.bytes declarationKeyword ++ after) ∧
      42 = (before ++ Utf8.bytes declarationKeyword).length + offset ∧
      Refused 0 after offset .argumentUnknown := by
  have h : scan (.ofString "uniform vec2 v (mean=(1,2), scale=(3,4),  x=5);") =
      .ok ⟨⟨[], 0⟩, some ⟨42, .argumentUnknown⟩⟩ := by
    decide +kernel
  obtain ⟨-, before, after, offset, hbytes, -, hoffset, hrefused⟩ := refused_of_scan h
  exact ⟨before, after, offset, hbytes, hoffset, hrefused⟩

end Document

end UniformBlock
