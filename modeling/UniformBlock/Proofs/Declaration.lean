import UniformBlock.Proofs.Argument

/-!
# Declarations and their grammar

A declaration is read where the grammar has one, and nowhere else. The
grammar asks for a blank on either side of the type. The reader does not look for
it: it skips as many blanks as there are, but the word before them has ended, so
what follows without a blank could not be a further word.
-/

namespace UniformBlock

open Ascii Grammar Reading

namespace UniformType

theorem ofKeyword?_keyword (t : UniformType) : ofKeyword? t.keyword = some t := by
  cases t <;> decide

theorem keyword_injective {t u : UniformType} (h : t.keyword = u.keyword) : t = u := by
  have hu := ofKeyword?_keyword u
  rw [← h, ofKeyword?_keyword] at hu
  exact Option.some.inj hu

theorem run_keyword (t : UniformType) : Run isWord (Utf8.bytes t.keyword) := by
  cases t <;> decide

theorem keyword_ne_nil (t : UniformType) : Utf8.bytes t.keyword ≠ [] := by
  cases t <;> decide

end UniformType

namespace Grammar

/-- A word cannot follow a word without something between them. -/
theorem ne_nil_of_stops_isWord {b u v : List UInt8} (hstop : Stops isWord (b ++ (u ++ v)))
    (hu : Run isWord u) (hne : u ≠ []) : b ≠ [] := by
  rintro rfl
  cases u with
  | nil => exact hne rfl
  | cons a as =>
      have ha : isWord a = true := (run_cons.1 hu).1
      rw [List.nil_append, List.cons_append, stops_cons, ha] at hstop
      cases hstop

theorem isBlank_eq_false_of_isWord {b : UInt8} (hb : isWord b = true) : isBlank b = false := by
  cases hblank : isBlank b with
  | false => rfl
  | true =>
      rw [isWord_eq_false_of_isBlank b hblank] at hb
      cases hb

/-- A word stops a run of blanks. -/
theorem stops_isBlank_of_run {u v : List UInt8} (hu : Run isWord u) (hne : u ≠ []) :
    Stops isBlank (u ++ v) := by
  cases u with
  | nil => exact absurd rfl hne
  | cons a as => exact stops_cons.2 (isBlank_eq_false_of_isWord (run_cons.1 hu).1)

end Grammar

namespace Value

variable {α : Type} {h k : Head}

theorem keyword?_of_firstKeyword? {ts : List UniformType} {t : UniformType}
    (hk : firstKeyword? h (ts.map fun t => (t.keyword, t)) = some (t, k)) :
    h.keyword? t.keyword = some k := by
  induction ts with
  | nil => cases hk
  | cons u ts ih =>
      rw [List.map_cons, firstKeyword?] at hk
      split at hk
      · rename_i l hl
        cases hk
        exact hl
      · exact ih hk

theorem firstKeyword?_ne_none {ts : List UniformType} {t : UniformType} (ht : t ∈ ts)
    (hk : h.keyword? t.keyword = some k) :
    firstKeyword? h (ts.map fun t => (t.keyword, t)) ≠ none := by
  induction ts with
  | nil => cases ht
  | cons u ts ih =>
      rw [List.map_cons, firstKeyword?]
      split
      · simp
      · rename_i hnone
        rcases List.mem_cons.1 ht with rfl | ht
        · rw [hk] at hnone
          cases hnone
        · exact ih ht

end Value

namespace Declaration

variable {h k : Head}

/-- A type is read exactly where its keyword is the whole word. -/
theorem readType_eq_ok_iff {t : UniformType} :
    readType h = (.ok t, k) ↔ h.Takes (Utf8.bytes t.keyword) k ∧ Stops isWord k.rest := by
  rw [← Head.keyword?_eq_some_iff]
  constructor
  · intro hr
    unfold readType at hr
    split at hr
    · rename_i u l hl
      obtain ⟨hu, rfl⟩ := Prod.mk.inj hr
      obtain rfl := Except.ok.inj hu
      exact Value.keyword?_of_firstKeyword? hl
    · simp at hr
  · intro hk
    cases hl : Value.firstKeyword? h (UniformType.all.map fun t => (t.keyword, t)) with
    | none => exact absurd hl (Value.firstKeyword?_ne_none (UniformType.mem_all t) hk)
    | some p =>
        obtain ⟨u, l⟩ := p
        have hword := (Head.keyword?_eq_some_iff_word t.run_keyword).1 hk
        have hword' := (Head.keyword?_eq_some_iff_word u.run_keyword).1
          (Value.keyword?_of_firstKeyword? hl)
        obtain rfl : t = u := UniformType.keyword_injective
          (Utf8.bytes_injective (hword.1.symm.trans hword'.1))
        simp only [readType, hl, hword.2, hword'.2]

/-- A name is read exactly where it is the whole word and the source goes on. -/
theorem readName_eq_ok_iff {name : String} :
    readName h = (.ok name, k) ↔
      NameText name ∧ h.Takes (Utf8.bytes name) k ∧ Stops isWord k.rest ∧ k.rest ≠ [] := by
  have htakes : h.Takes h.word h.takeWord.2 := Head.takes_skipWhile h isWord
  have hstops : Stops isWord h.takeWord.2.rest := Head.stops_rest_skipWhile h isWord
  have hrun : Run isWord h.word := run_takeWhile isWord h.rest
  have hbytes : Utf8.bytes h.takeWord.1 = h.word := h.bytes_takeWord
  constructor
  · intro hr
    unfold readName at hr
    simp only at hr
    split at hr
    · simp at hr
    · rename_i hpos
      split at hr
      · simp at hr
      · rename_i hend
        split at hr
        · simp at hr
        · rename_i hlong
          simp only [Prod.mk.injEq, Except.ok.injEq] at hr
          obtain ⟨rfl, rfl⟩ := hr
          rw [hbytes]
          refine ⟨⟨?_, ?_, ?_⟩, htakes, hstops, ?_⟩
          · rwa [hbytes]
          · rw [hbytes]
            exact Nat.pos_of_ne_zero hpos
          · rw [hbytes]
            exact Nat.le_of_not_lt hlong
          · intro hnil
            simp [Head.atEnd, hnil] at hend
  · rintro ⟨hname, hk, hstop, hend⟩
    have hword : h.word = Utf8.bytes name := by
      rw [Head.word, hk.rest_eq, takeWhile_append hname.word hstop]
    have hlater : h.takeWord.2 = k := by
      rw [hk.eq_skip, ← hword]
      rfl
    have hfirst : h.takeWord.1 = name := by
      rw [Head.takeWord, hword, Utf8.text_bytes]
    have hpos := hname.pos
    unfold readName
    simp only [hlater, hfirst]
    rw [hword, if_neg (by omega), if_neg (by simpa [Head.atEnd] using hend),
      if_neg (not_lt.2 hname.le)]

/-- Metadata, where the blanks before them have been skipped. -/
theorem readMetadata_sound {type : UniformType} {m : Metadata} (hh : Utf8.IsText h.rest)
    (hr : readMetadata type h = (.ok m, k)) :
    (m = .default ∧ k = h) ∨
      ∃ args w, ListText (ArgumentText type) args w ∧
        m = args.foldl Argument.apply .default ∧ h.Takes w k := by
  unfold readMetadata at hr
  split at hr
  · exact Or.inr (Metadata.read_sound hh hr)
  · simp only [Prod.mk.injEq, Except.ok.injEq] at hr
    exact Or.inl ⟨hr.1.symm, hr.2.symm⟩

theorem stops_of_metadataText {type : UniformType} {m : Metadata} {p : UInt8 → Bool}
    {w rest : List UInt8} (hw : MetadataText type m w) (hopen : p openParen = false)
    (hend : p semicolon = false) : Stops p (w ++ (semicolon :: rest)) := by
  cases hw with
  | none => exact stops_cons.2 hend
  | list hw hb =>
      obtain ⟨t, rfl⟩ := hw.opens
      exact stops_cons.2 hopen

theorem readMetadata_complete {type : UniformType} {m : Metadata} {w : List UInt8}
    (hw : MetadataText type m w) (htakes : h.Takes (w ++ [semicolon]) k) :
    ∃ l b, readMetadata type h = (.ok m, l) ∧ Blanks b ∧ l.Takes (b ++ [semicolon]) k := by
  cases hw with
  | none =>
      have hpeek : h.peek? = some semicolon := by rw [Head.peek?, htakes.rest_eq]; rfl
      refine ⟨h, [], ?_, run_nil, htakes⟩
      rw [readMetadata, hpeek, if_neg (by decide)]
  | @list args w b hw hb =>
      rw [List.append_assoc] at htakes
      obtain ⟨l, hl, hk⟩ := htakes.split
      have hpeek : h.peek? = some openParen := by
        obtain ⟨t, rfl⟩ := hw.opens
        rw [Head.peek?, hl.rest_eq]
        rfl
      refine ⟨l, b, ?_, hb, hk⟩
      rw [readMetadata, if_pos hpeek]
      exact Metadata.read_complete hw hl

/-- What is read as a declaration is one. -/
theorem read_sound {declared : Nat} {d : Declaration} (hh : Utf8.IsText h.rest)
    (hstop : Stops isWord h.rest) (hr : read declared h = (.ok d, k)) :
    ∃ w, DeclarationText d w ∧ h.Takes w k := by
  unfold read at hr
  split at hr
  · simp [Reading.fail] at hr
  · obtain ⟨_, h₁, hr₁, hr⟩ := bind_eq_ok_iff.1 hr
    obtain ⟨type, h₂, hr₂, hr⟩ := bind_eq_ok_iff.1 hr
    obtain ⟨_, h₃, hr₃, hr⟩ := bind_eq_ok_iff.1 hr
    obtain ⟨name, h₄, hr₄, hr⟩ := bind_eq_ok_iff.1 hr
    obtain ⟨_, h₅, hr₅, hr⟩ := bind_eq_ok_iff.1 hr
    obtain ⟨m, h₆, hr₆, hr⟩ := bind_eq_ok_iff.1 hr
    obtain ⟨_, h₇, hr₇, hr⟩ := bind_eq_ok_iff.1 hr
    obtain ⟨_, h₈, hr₈, hr⟩ := bind_eq_ok_iff.1 hr
    obtain ⟨rfl, rfl⟩ := pure_eq_ok_iff.1 hr
    obtain ⟨b, hb, ht₁, -⟩ := skipBlanks_eq_ok_iff.1 hr₁
    obtain ⟨ht₂, hstop₂⟩ := readType_eq_ok_iff.1 hr₂
    obtain ⟨c, hc, ht₃, -⟩ := skipBlanks_eq_ok_iff.1 hr₃
    obtain ⟨hname, ht₄, -, -⟩ := readName_eq_ok_iff.1 hr₄
    obtain ⟨e, he, ht₅, -⟩ := skipBlanks_eq_ok_iff.1 hr₅
    obtain ⟨f, hf, ht₇, -⟩ := skipBlanks_eq_ok_iff.1 hr₇
    have ht₈ := expect_eq_ok_iff.1 hr₈
    have hb' : b ≠ [] := by
      rw [ht₁.rest_eq, ht₂.rest_eq] at hstop
      exact ne_nil_of_stops_isWord hstop type.run_keyword type.keyword_ne_nil
    have hc' : c ≠ [] := by
      rw [ht₃.rest_eq, ht₄.rest_eq] at hstop₂
      exact ne_nil_of_stops_isWord hstop₂ hname.word (List.ne_nil_of_length_pos hname.pos)
    have hh₅ : Utf8.IsText h₅.rest := by
      have hh₁ := (keepsText_skipBlanks.lands hh hr₁).1.2
      have hh₂ := (keepsText_readType.lands hh₁ hr₂).1.2
      have hh₃ := (keepsText_skipBlanks.lands hh₂ hr₃).1.2
      have hh₄ := (keepsText_readName.lands hh₃ hr₄).1.2
      exact (keepsText_skipBlanks.lands hh₄ hr₅).1.2
    have hfront := ht₁.append (ht₂.append (ht₃.append (ht₄.append ht₅)))
    rcases readMetadata_sound hh₅ hr₆ with ⟨rfl, rfl⟩ | ⟨args, w, hw, rfl, ht₆⟩
    · -- without a list the blanks on either side of it are one run
      refine ⟨_, .mk hb hb' hc hc' hname (run_append he hf) .none, ?_⟩
      have hall := hfront.append (ht₇.append ht₈)
      simpa only [List.append_assoc, List.nil_append] using hall
    · refine ⟨_, .mk hb hb' hc hc' hname he (.list hw hf), ?_⟩
      have hall := hfront.append (ht₆.append (ht₇.append ht₈))
      simpa only [List.append_assoc] using hall

/-- A declaration is read where one stands, unless there have been too many. -/
theorem read_complete {declared : Nat} {d : Declaration} {w : List UInt8}
    (hfew : declared < Limits.uniforms) (hd : DeclarationText d w) (hw : h.Takes w k) :
    read declared h = (.ok d, k) := by
  obtain @⟨type, name, m, b, c, e, w, hb, -, hc, hc', hname, he, hm⟩ := hd
  have hname' : Utf8.bytes name ≠ [] := List.ne_nil_of_length_pos hname.pos
  obtain ⟨h₁, hr₁, hw⟩ := skipBlanks_complete hw hb
    (by rw [List.append_assoc]; exact stops_isBlank_of_run type.run_keyword type.keyword_ne_nil)
  obtain ⟨h₂, ht₂, hw⟩ := hw.split
  have hstop₂ : Stops isWord h₂.rest := by
    rw [hw.rest_eq]
    cases c with
    | nil => exact absurd rfl hc'
    | cons a as => exact stops_cons.2 (isWord_eq_false_of_isBlank a (run_cons.1 hc).1)
  have hr₂ := readType_eq_ok_iff.2 ⟨ht₂, hstop₂⟩
  obtain ⟨h₃, hr₃, hw⟩ := skipBlanks_complete hw hc
    (by rw [List.append_assoc]; exact stops_isBlank_of_run hname.word hname')
  obtain ⟨h₄, ht₄, hw⟩ := hw.split
  have hstop₄ : Stops isWord h₄.rest := by
    rw [hw.rest_eq, List.append_assoc, List.append_assoc]
    exact he.stops isWord_eq_false_of_isBlank (stops_of_metadataText hm (by decide) (by decide))
  have hr₄ := readName_eq_ok_iff.2 ⟨hname, ht₄, hstop₄, by rw [hw.rest_eq]; simp⟩
  obtain ⟨h₅, hr₅, hw⟩ := skipBlanks_complete hw he
    (by rw [List.append_assoc]; exact stops_of_metadataText hm (by decide) (by decide))
  obtain ⟨h₆, f, hr₆, hf, hw⟩ := readMetadata_complete hm hw
  obtain ⟨h₇, hr₇, hw⟩ := skipBlanks_complete hw hf (stops_cons.2 (by decide))
  obtain ⟨h₈, hr₈, hw⟩ := expect_complete .declarationUnterminated hw
  obtain rfl := hw.eq_of_nil
  rw [read, if_neg (by omega)]
  refine bind_eq_ok_iff.2 ⟨(), h₁, hr₁, bind_eq_ok_iff.2 ⟨type, h₂, hr₂, ?_⟩⟩
  refine bind_eq_ok_iff.2 ⟨(), h₃, hr₃, bind_eq_ok_iff.2 ⟨name, h₄, hr₄, ?_⟩⟩
  refine bind_eq_ok_iff.2 ⟨(), h₅, hr₅, bind_eq_ok_iff.2 ⟨m, h₆, hr₆, ?_⟩⟩
  exact bind_eq_ok_iff.2 ⟨(), h₇, hr₇, bind_eq_ok_iff.2 ⟨(), k, hr₈, rfl⟩⟩

end Declaration

end UniformBlock
