import UniformBlock.Proofs.Declaration

/-!
# Pieces between declarations

What stands between two declarations is cut into comments, words and single
characters. A text that does not open a declaration always has a first piece
(`exists_piece`), the piece ends on a character boundary (`Piece.isText`), and it
stays a piece when the text behind it is cut off (`Piece.of_prefix`).

On the other side `toWord` passes over comments and characters in stretches of
its own, which are not those of the grammar: a run of punctuation is one stretch,
and blanks are another. All that counts is where the stretches end. `toWord` does
not depend on how many bytes of a run of punctuation have been skipped before
(`toWord_skipPunctuation`), so that it can be followed byte by byte.
-/

namespace UniformBlock

open Ascii Grammar

namespace Grammar

variable {w rest bs : List UInt8}

/-! ## Comments -/

theorem opensComment_iff : OpensComment bs ↔ Head.startsComment bs = true := by
  have hprefix (a b : UInt8) : [a, b] <+: bs ↔ ∃ cs, bs = a :: b :: cs := by
    constructor
    · rintro ⟨cs, rfl⟩
      exact ⟨cs, rfl⟩
    · rintro ⟨cs, rfl⟩
      exact ⟨cs, rfl⟩
  rw [OpensComment, hprefix, hprefix, Head.startsComment, Bool.or_eq_true, Head.startsLine_iff,
    Head.startsBlock_iff]

/-- A block comment has a first end mark or none. -/
theorem exists_endMark (bs : List UInt8) :
    ¬ [star, slash] <:+: bs ∨
      ∃ body rest, bs = body ++ ([star, slash] ++ rest) ∧ ¬ [star, slash] <:+: body := by
  induction bs with
  | nil => exact Or.inl (by simp)
  | cons b bs ih =>
      by_cases hmark : [star, slash] <+: b :: bs
      · obtain ⟨rest, hrest⟩ := hmark
        exact Or.inr ⟨[], rest, hrest.symm, by simp⟩
      · rcases ih with hnone | ⟨body, rest, rfl, hbody⟩
        · refine Or.inl fun hinfix => ?_
          rcases List.infix_cons_iff.1 hinfix with h | h
          · exact hmark h
          · exact hnone h
        · refine Or.inr ⟨b :: body, rest, rfl, fun hinfix => ?_⟩
          rcases List.infix_cons_iff.1 hinfix with h | h
          · exact hmark (h.trans (List.prefix_append (b :: body) _))
          · exact hbody h

theorem exists_run (p : UInt8 → Bool) (bs : List UInt8) :
    ∃ u v, bs = u ++ v ∧ Run p u ∧ Stops p v :=
  ⟨_, _, (takeWhile_append_drop p bs).symm, run_takeWhile p bs, stops_drop_takeWhile p bs⟩

theorem lineComment_of_starts {cs : List UInt8} :
    ∃ w rest, slash :: slash :: cs = w ++ rest ∧ w ≠ [] ∧ Piece w rest := by
  obtain ⟨body, t, rfl, hbody, hstop⟩ := exists_run (!isNewline ·) cs
  obtain ⟨newlines, rest, rfl, hnewlines, hrest⟩ := exists_run isNewline t
  refine ⟨_, rest, ?_, List.cons_ne_nil _ _, .lineComment hbody hnewlines hrest ?_⟩
  · simp only [List.cons_append, List.append_assoc]
  · -- the body ends at a newline or at the end, so no newline means the end
    rintro rfl
    cases rest with
    | nil => rfl
    | cons a as =>
        rw [List.nil_append, stops_cons, stops_cons.1 hrest] at hstop
        cases hstop

theorem blockComment_of_starts {cs : List UInt8} :
    ∃ w rest, slash :: star :: cs = w ++ rest ∧ w ≠ [] ∧ Piece w rest := by
  rcases exists_endMark cs with hnone | ⟨body, rest, rfl, hbody⟩
  · exact ⟨_, [], (List.append_nil _).symm, List.cons_ne_nil _ _, .openComment hnone⟩
  · refine ⟨_, rest, ?_, List.cons_ne_nil _ _, .blockComment hbody⟩
    simp only [List.cons_append, List.append_assoc]

/-! ## The first piece of a text -/

theorem word_of_starts {b : UInt8} (hb : isWord b = true) (hopen : ¬ OpensDeclaration (b :: bs)) :
    ∃ w rest, b :: bs = w ++ rest ∧ w ≠ [] ∧ Piece w rest := by
  obtain ⟨w, rest, heq, hw, hrest⟩ := exists_run isWord (b :: bs)
  have hne : w ≠ [] := by
    rintro rfl
    rw [← List.nil_append rest, ← heq, stops_cons, hb] at hrest
    cases hrest
  rw [OpensDeclaration, heq, takeWhile_append hw hrest] at hopen
  exact ⟨w, rest, heq, hne, .word hw hne hrest hopen⟩

/-- A text that does not open a declaration begins with a piece. -/
theorem exists_piece (htext : Utf8.IsText bs) (hne : bs ≠ []) (hopen : ¬ OpensDeclaration bs) :
    ∃ w rest, bs = w ++ rest ∧ w ≠ [] ∧ Piece w rest := by
  by_cases hcomment : OpensComment bs
  · rcases hcomment with ⟨cs, rfl⟩ | ⟨cs, rfl⟩
    · exact lineComment_of_starts
    · exact blockComment_of_starts
  · obtain ⟨cs, rfl⟩ := htext
    cases cs with
    | nil => exact absurd rfl hne
    | cons c cs =>
        rw [Utf8.encode_cons] at hcomment hopen ⊢
        cases hc : String.utf8EncodeChar c with
        | nil => exact absurd hc String.utf8EncodeChar_ne_nil
        | cons b bs =>
            rw [hc] at hcomment hopen
            cases hb : isWord b with
            | true => exact word_of_starts hb hopen
            | false =>
                refine ⟨b :: bs, _, rfl, List.cons_ne_nil _ _, ?_⟩
                rw [← hc]
                exact .other (by rw [hc]; exact stops_cons.2 hb) (by rw [hc]; exact hcomment)

theorem isText_of_run_append {p : UInt8 → Bool} (hp : ∀ b, p b = true → b.toNat < 0x80)
    (hw : Run p w) (h : Utf8.IsText (w ++ rest)) : Utf8.IsText rest :=
  h.of_append (Utf8.isText_of_run hp hw)

/-- A piece ends where a character ends. -/
theorem Piece.isText (hw : Piece w rest) (h : Utf8.IsText (w ++ rest)) : Utf8.IsText rest := by
  cases hw with
  | @lineComment body newlines _ hbody hnewlines hrest hend =>
      have hascii : ∀ b, isNewline b = true → b.toNat < 0x80 := by
        intro b hb
        simp only [isNewline, Bool.or_eq_true, beq_iff_eq] at hb
        rcases hb with rfl | rfl <;> decide
      have hstart : Utf8.StartsChar (newlines ++ rest) := by
        cases newlines with
        | nil =>
            rw [hend rfl]
            exact Utf8.isText_nil.startsChar
        | cons a as => exact Utf8.startsChar_cons (hascii a (run_cons.1 hnewlines).1)
      have h : Utf8.IsText ((slash :: slash :: body) ++ (newlines ++ rest)) := by simpa using h
      exact isText_of_run_append hascii hnewlines (h.split hstart).2
  | @blockComment body _ hbody =>
      have h : Utf8.IsText ((slash :: star :: body) ++ (star :: slash :: rest)) := by simpa using h
      have hmark := (h.split (Utf8.startsChar_cons (by decide))).2
      exact (hmark.of_cons (by decide)).of_cons (by decide)
  | openComment hbody => exact Utf8.isText_nil
  | word hw hne hrest hkeyword => exact isText_of_run_append (fun _ => toNat_lt_of_isWord) hw h
  | @other c _ hword hcomment => exact h.of_append ⟨[c], by simp⟩

/-- No piece looks at what follows it, except to see that nothing more belongs
to it. -/
theorem Piece.of_prefix {rest' : List UInt8} (hw : Piece w rest) (hrest' : rest' <+: rest) :
    Piece w rest' := by
  have hstops {p : UInt8 → Bool} (h : Stops p rest) : Stops p rest' := by
    intro b hb
    rw [Option.mem_def, List.head?_eq_some_iff] at hb
    obtain ⟨bs, rfl⟩ := hb
    obtain ⟨tail, rfl⟩ := hrest'
    exact stops_cons.1 h
  cases hw with
  | lineComment hbody hnewlines hrest hend =>
      refine .lineComment hbody hnewlines (hstops hrest) fun hnil => ?_
      rw [hend hnil] at hrest'
      exact List.prefix_nil.1 hrest'
  | blockComment hbody => exact .blockComment hbody
  | openComment hbody =>
      rw [List.prefix_nil.1 hrest']
      exact .openComment hbody
  | word hw hne hrest hkeyword => exact .word hw hne (hstops hrest) hkeyword
  | @other c _ hword hcomment =>
      refine .other hword fun hopens => hcomment ?_
      have hprefix := (List.prefix_append_right_inj (String.utf8EncodeChar c)).2 hrest'
      rcases hopens with h | h
      · exact Or.inl (h.trans hprefix)
      · exact Or.inr (h.trans hprefix)

end Grammar

namespace Head

variable {h k : Head} {w bs : List UInt8}

/-! ## Comments in front of a head -/

theorem skipComment?_of_line {body newlines : List UInt8}
    (hw : h.Takes (slash :: slash :: (body ++ newlines)) k) (hbody : Run (!isNewline ·) body)
    (hnewlines : Run isNewline newlines) (hrest : Stops isNewline k.rest)
    (hend : newlines = [] → k.rest = []) : h.skipComment? = some k := by
  have hstarts : startsLine h.rest = true := startsLine_iff.2 ⟨_, hw.rest_eq⟩
  obtain ⟨l, hl, hk⟩ := (show h.Takes ((slash :: slash :: body) ++ newlines) k from hw).split
  have hrun : Run (!isNewline ·) (slash :: slash :: body) :=
    run_cons.2 ⟨by decide, run_cons.2 ⟨by decide, hbody⟩⟩
  have hstop : Stops (!isNewline ·) l.rest := by
    rw [hk.rest_eq]
    cases newlines with
    | nil =>
        rw [hend rfl]
        exact stops_nil
    | cons a as => exact stops_cons.2 (by rw [(run_cons.1 hnewlines).1]; rfl)
  rw [skipComment?, if_pos hstarts, skipWhile_eq hl hrun hstop, skipWhile_eq hk hnewlines hrest]

/-- The length of a block comment without an end mark before the given one. -/
theorem blockLength_append (n : Nat) {body rest : List UInt8} (hbody : ¬ [star, slash] <:+: body)
    (hrest : rest = [] ∨ ∃ t, rest = star :: slash :: t) :
    blockLength n (body ++ rest) = n + body.length + min 2 rest.length := by
  induction body generalizing n with
  | nil =>
      rcases hrest with rfl | ⟨t, rfl⟩
      · rfl
      · rw [List.nil_append, blockLength, if_pos (by rfl)]
        simp
  | cons b body ih =>
      have hmark : ¬ (b == star && (body ++ rest).head? == some slash) = true := by
        rw [Bool.and_eq_true, beq_iff_eq, beq_iff_eq]
        rintro ⟨rfl, hslash⟩
        cases body with
        | nil =>
            rcases hrest with rfl | ⟨t, rfl⟩
            · cases hslash
            · exact absurd (Option.some.inj hslash) (by decide)
        | cons c body =>
            obtain rfl : c = slash := by simpa using hslash
            exact hbody (List.prefix_append [Ascii.star, slash] body).isInfix
      rw [List.cons_append, blockLength, if_neg hmark, ih (n + 1) ?_, List.length_cons]
      · omega
      · exact fun hinfix => hbody (List.infix_cons hinfix)

theorem skipComment?_of_block {body mark : List UInt8}
    (hw : h.Takes (slash :: star :: (body ++ mark)) k) (hbody : ¬ [star, slash] <:+: body)
    (hmark : mark = [star, slash] ∨ mark = [] ∧ k.rest = []) : h.skipComment? = some k := by
  have hline : ¬ startsLine h.rest = true := by
    rw [startsLine_iff]
    rintro ⟨cs, hcs⟩
    rw [hw.rest_eq] at hcs
    exact absurd (List.cons.inj (List.cons.inj hcs).2).1 (by decide)
  have hblock : startsBlock h.rest = true := startsBlock_iff.2 ⟨_, hw.rest_eq⟩
  have hlength : blockLength 0 (h.rest.drop 2) = body.length + mark.length := by
    rw [hw.rest_eq, List.cons_append, List.cons_append, List.drop_succ_cons, List.drop_succ_cons,
      List.drop_zero, List.append_assoc, blockLength_append 0 hbody ?_]
    · rcases hmark with rfl | ⟨rfl, hnil⟩
      · simp
      · simp [hnil]
    · rcases hmark with rfl | ⟨rfl, hnil⟩
      · exact Or.inr ⟨k.rest, rfl⟩
      · exact Or.inl hnil
  rw [skipComment?, if_neg hline, if_pos hblock, hlength, hw.eq_skip]
  congr 2
  simp only [List.length_cons, List.length_append]
  omega

/-! ## Punctuation in front of a head -/

theorem punctuationLength_eq_add (n : Nat) (bs : List UInt8) :
    punctuationLength n bs = n + punctuationLength 0 bs := by
  induction bs generalizing n with
  | nil => rfl
  | cons b bs ih =>
      rw [punctuationLength, punctuationLength]
      split
      · rfl
      · rw [ih (n + 1), ih (0 + 1)]
        omega

/-- One byte that begins neither a word nor a comment may be skipped first. -/
theorem skipPunctuation_of_takes {b : UInt8} (hb : h.Takes [b] k) (hword : isWord b = false)
    (hcomment : startsComment h.rest = false) : k.skipPunctuation = h.skipPunctuation := by
  have hrest : h.rest = b :: k.rest := hb.rest_eq
  rw [hrest] at hcomment
  rw [skipPunctuation, skipPunctuation, hrest, punctuationLength, if_neg, hb.eq_skip, skip_skip,
    punctuationLength_eq_add (0 + 1)]
  · simp
  · rw [hword, hcomment]
    decide

theorem startsComment_eq_false {b : UInt8} (hb : b ≠ slash) :
    startsComment (b :: bs) = false := by
  rw [← Bool.not_eq_true, ← opensComment_iff]
  rintro (⟨cs, hcs⟩ | ⟨cs, hcs⟩)
  · exact hb (List.cons.inj hcs).1.symm
  · exact hb (List.cons.inj hcs).1.symm

/-- A byte that never begins a word or a comment. -/
def isInert (b : UInt8) : Bool := !isWord b && b != slash

theorem isInert_of_isBlank {b : UInt8} (hb : isBlank b = true) : isInert b = true := by
  simp only [isBlank, Bool.or_eq_true, beq_iff_eq] at hb
  rcases hb with ((rfl | rfl) | rfl) | rfl <;> decide

theorem skipPunctuation_of_run (hw : h.Takes w k) (hrun : Run isInert w) :
    k.skipPunctuation = h.skipPunctuation := by
  induction w generalizing h with
  | nil => rw [hw.eq_of_nil]
  | cons b w ih =>
      obtain ⟨l, hl, hk⟩ := hw.uncons
      obtain ⟨hb, hrun⟩ := run_cons.1 hrun
      simp only [isInert, Bool.and_eq_true, Bool.not_eq_true', bne_iff_ne] at hb
      rw [ih hk hrun, skipPunctuation_of_takes hl hb.1]
      rw [hw.rest_eq]
      exact startsComment_eq_false hb.2

/-! ## The next word -/

theorem toWord_of_some (hg : h.skipGap? = some k) : h.toWord = k.toWord := by
  rw [toWord]
  split
  · rename_i l hl
    rw [Option.some.inj (hl.symm.trans hg)]
  · rename_i hnone
    rw [hg] at hnone
    cases hnone

theorem toWord_of_none (hg : h.skipGap? = none) : h.toWord = h := by
  rw [toWord]
  split
  · rename_i l hl
    rw [hg] at hl
    cases hl
  · rfl

theorem toWord_of_skipComment? (hc : h.skipComment? = some k) : h.toWord = k.toWord := by
  refine toWord_of_some ?_
  rw [skipGap?, hc]

/-- Skipping punctuation does not change which word comes next. -/
theorem toWord_skipPunctuation (h : Head) : h.skipPunctuation.toWord = h.toWord := by
  -- blanks are skipped on their own first, and punctuation may follow them
  fun_induction toWord h with
  | case1 h later hg ih =>
      rw [skipGap?] at hg
      split at hg
      · rename_i l hc
        obtain rfl := Option.some.inj hg
        have hzero : punctuationLength 0 h.rest = 0 := by
          cases hrest : h.rest with
          | nil => rfl
          | cons b bs =>
              have hstart : startsComment h.rest = true := by
                rw [← Bool.not_eq_false, ← skipComment?_eq_none_iff, hc]
                simp
              rw [hrest] at hstart
              rw [punctuationLength, if_pos (by rw [hstart, Bool.or_true])]
        rw [skipPunctuation, hzero, skip_zero, toWord_of_skipComment? hc]
      · split at hg
        · obtain rfl := Option.some.inj hg
          have hrun : Run isInert (h.rest.takeWhile isBlank) := fun b hb =>
            isInert_of_isBlank (run_takeWhile isBlank h.rest b hb)
          rw [← ih, skipBlanks, skipPunctuation_of_run (takes_skipWhile h isBlank) hrun]
        · split at hg
          · cases hg
          · rw [Option.some.inj hg]
  | case2 h hg =>
      have hzero : punctuationLength 0 h.rest = 0 := by
        rw [skipGap?] at hg
        split at hg
        · cases hg
        · split at hg
          · cases hg
          · split at hg
            · assumption
            · cases hg
      rw [skipPunctuation, hzero, skip_zero, toWord_of_none hg]

theorem isInert_of_isContinuation {b : UInt8} (hb : Utf8.isContinuation b = true) :
    isInert b = true := by
  rw [Utf8.isContinuation_iff] at hb
  rw [isInert, Bool.and_eq_true, Bool.not_eq_true', bne_iff_ne, Bool.eq_false_iff]
  constructor
  · intro hword
    have hlt := toNat_lt_of_isWord hword
    omega
  · rintro rfl
    exact absurd hb (by decide)

/-- A character that begins neither a word nor a comment does not change which
word comes next. -/
theorem toWord_of_char {c : Char} (hc : h.Takes (String.utf8EncodeChar c) k)
    (hword : Stops isWord (String.utf8EncodeChar c)) (hcomment : ¬ OpensComment h.rest) :
    h.toWord = k.toWord := by
  cases hbytes : String.utf8EncodeChar c with
  | nil => exact absurd hbytes String.utf8EncodeChar_ne_nil
  | cons b bs =>
      rw [hbytes] at hc hword
      rw [opensComment_iff, Bool.not_eq_true] at hcomment
      obtain ⟨l, hl, hk⟩ := hc.uncons
      have hrun : Run isInert bs := fun x hx =>
        isInert_of_isContinuation ((Utf8.utf8EncodeChar_spec hbytes).2.1 x hx)
      rw [← toWord_skipPunctuation h, ← toWord_skipPunctuation k, skipPunctuation_of_run hk hrun,
        skipPunctuation_of_takes hl (stops_cons.1 hword) hcomment]

theorem toWord_of_word (hw : h.Takes w k) (hrun : Run isWord w) (hne : w ≠ []) :
    h.toWord = h := by
  cases w with
  | nil => exact absurd rfl hne
  | cons b w =>
      have hrest : h.rest = b :: (w ++ k.rest) := hw.rest_eq
      have hb : isWord b = true := (run_cons.1 hrun).1
      have hcomment : h.skipComment? = none := by
        rw [skipComment?_eq_none_iff, hrest]
        refine startsComment_eq_false ?_
        rintro rfl
        exact absurd hb (by decide)
      have hzero : punctuationLength 0 h.rest = 0 := by
        rw [hrest, punctuationLength, hb, Bool.true_or, if_pos rfl]
      have hblank : ¬ h.rest.head?.any isBlank = true := by
        rw [hrest, List.head?_cons, Option.any_some, isBlank_eq_false_of_isWord hb]
        decide
      refine toWord_of_none ?_
      rw [skipGap?, hcomment]
      simp only [if_neg hblank, if_pos hzero]

end Head

end UniformBlock
