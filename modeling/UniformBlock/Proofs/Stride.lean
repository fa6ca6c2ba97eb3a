import Mathlib.Logic.Relation
import UniformBlock.Proofs.Progress

/-!
# Strides to the next word

`Head.toWord` passes over what stands in front of a word in stretches of three
kinds: comments, runs of blanks, and runs of punctuation, which may hold blanks
themselves but end in front of a comment. Here the same way is gone one stride at
a time. A stride passes over the comment that begins at the head or, where none
begins, over one byte that is neither a letter nor a digit; what a comment is, the
grammar says.

No stride changes which word comes next (`Stride.toWord_eq`), and there is a next
one until a letter or digit or the end of the source is reached. So strides end
where `toWord` does, and it is only inside comments that they pass over letters
and digits (`Head.findsWord`).
-/

namespace UniformBlock

open Ascii Grammar

namespace Grammar

variable {bs : List UInt8}

/-- The comment `w`, where `rest` follows: the piece at a place where a comment
begins. -/
def CommentText (w rest : List UInt8) : Prop := OpensComment (w ++ rest) ∧ Piece w rest

/-- Wherever a comment begins there is one. -/
theorem exists_commentText (hopens : OpensComment bs) :
    ∃ w rest, bs = w ++ rest ∧ CommentText w rest := by
  have hpiece : ∃ w rest, bs = w ++ rest ∧ w ≠ [] ∧ Piece w rest := by
    rcases hopens with ⟨cs, rfl⟩ | ⟨cs, rfl⟩
    · exact lineComment_of_starts
    · exact blockComment_of_starts
  obtain ⟨w, rest, rfl, -, hw⟩ := hpiece
  exact ⟨w, rest, rfl, hopens, hw⟩

theorem OpensComment.exists_eq_cons (hopens : OpensComment bs) : ∃ cs, bs = slash :: cs := by
  rcases hopens with ⟨cs, rfl⟩ | ⟨cs, rfl⟩
  · exact ⟨_, rfl⟩
  · exact ⟨_, rfl⟩

end Grammar

namespace Head

variable {h k l : Head} {w : List UInt8}

/-! ## One stride -/

/-- The comments of the grammar are those that are skipped. -/
theorem skipComment?_of_commentText (hw : h.Takes w k) (hcomment : CommentText w k.rest) :
    h.skipComment? = some k := by
  obtain ⟨hopens, hpiece⟩ := hcomment
  generalize hrest : k.rest = rest at hopens hpiece
  cases hpiece with
  | lineComment hbody hnewlines hstop hend =>
      exact skipComment?_of_line hw hbody hnewlines (hrest ▸ hstop) (hrest ▸ hend)
  | blockComment hbody => exact skipComment?_of_block hw hbody (.inl rfl)
  | openComment hbody =>
      rw [← List.append_nil (slash :: star :: _)] at hw
      exact skipComment?_of_block hw hbody (.inr ⟨rfl, hrest⟩)
  | @word w _ hrun hne _ _ =>
      -- a word does not begin with a slash
      obtain ⟨b, bs, rfl⟩ := List.exists_cons_of_ne_nil hne
      obtain ⟨cs, hcs⟩ := hopens.exists_eq_cons
      obtain rfl : b = slash := (List.cons.inj hcs).1
      exact absurd (run_cons.1 hrun).1 (by decide)
  | other _ hnone => exact absurd hopens hnone

/-- One stride: over the comment that begins at the head or, where none begins, over
one byte that is neither a letter nor a digit. -/
inductive Stride (h k : Head) : Prop
  | comment {w : List UInt8} (hw : h.Takes w k) (hcomment : CommentText w k.rest)
  | byte {b : UInt8} (hb : h.Takes [b] k) (hword : isWord b = false)
      (hnone : ¬ OpensComment h.rest)

/-- The head stands in front of a letter or digit or at the end of its source. -/
def Halts (h : Head) : Prop := ∀ b ∈ h.peek?, isWord b = true

theorem Stride.toWord_eq (hs : h.Stride k) : h.toWord = k.toWord := by
  cases hs with
  | comment hw hcomment =>
      exact toWord_of_skipComment? (skipComment?_of_commentText hw hcomment)
  | byte hb hword hnone =>
      rw [opensComment_iff, Bool.not_eq_true] at hnone
      rw [← toWord_skipPunctuation h, ← toWord_skipPunctuation k,
        skipPunctuation_of_takes hb hword hnone]

theorem Stride.length_lt (hs : h.Stride k) : k.rest.length < h.rest.length := by
  cases hs with
  | comment hw hcomment => exact length_skipComment?_lt (skipComment?_of_commentText hw hcomment)
  | byte hb => exact hb.length_lt (List.cons_ne_nil _ _)

theorem Stride.source_eq (hs : h.Stride k) : k.source = h.source := by
  cases hs with
  | comment hw => exact hw.reaches.source_eq
  | byte hb => exact hb.reaches.source_eq

theorem Stride.not_halts (hs : h.Stride k) : ¬ h.Halts := by
  have hfront : ∃ b bs, h.rest = b :: bs ∧ isWord b = false := by
    cases hs with
    | comment hw hcomment =>
        obtain ⟨cs, hcs⟩ := hcomment.1.exists_eq_cons
        exact ⟨slash, cs, hw.rest_eq.trans hcs, rfl⟩
    | byte hb hword => exact ⟨_, _, hb.rest_eq, hword⟩
  obtain ⟨b, bs, hrest, hword⟩ := hfront
  intro hhalts
  rw [hhalts b (by rw [peek?, hrest]; rfl)] at hword
  cases hword

/-- There is only one way to stride on. -/
theorem Stride.unique (hk : h.Stride k) (hl : h.Stride l) : k = l := by
  cases hk with
  | comment hw hcomment =>
      cases hl with
      | comment hw' hcomment' =>
          exact Option.some.inj ((skipComment?_of_commentText hw hcomment).symm.trans
            (skipComment?_of_commentText hw' hcomment'))
      | byte hb hword hnone => exact absurd (hw.rest_eq ▸ hcomment.1) hnone
  | byte hb hword hnone =>
      cases hl with
      | comment hw hcomment => exact absurd (hw.rest_eq ▸ hcomment.1) hnone
      | byte hb' => exact hb.eq_skip.trans hb'.eq_skip.symm

theorem exists_stride (hh : ¬ h.Halts) : ∃ k, h.Stride k := by
  by_cases hopens : OpensComment h.rest
  · obtain ⟨w, rest, hrest, hcomment⟩ := exists_commentText hopens
    obtain ⟨k, hk, rfl⟩ := exists_takes hrest
    exact ⟨k, .comment hk hcomment⟩
  · cases hrest : h.rest with
    | nil => exact absurd (by simp [Halts, peek?, hrest]) hh
    | cons b bs =>
        have hword : isWord b = false := by simpa [Halts, peek?, hrest] using hh
        obtain ⟨k, hk, -⟩ := exists_takes (show h.rest = [b] ++ bs from hrest)
        exact ⟨k, .byte hk hword hopens⟩

/-! ## Stride after stride -/

/-- The head `k` is reached from `h` by strides. -/
abbrev Walks (h k : Head) : Prop := Relation.ReflTransGen Stride h k

theorem halts_toWord (h : Head) : h.toWord.Halts := by
  cases hend : h.toWord.atEnd with
  | true =>
      rw [atEnd, List.isEmpty_iff] at hend
      simp [Halts, peek?, hend]
  | false =>
      have hword := atWord_of_skipGap?_eq_none (skipGap?_toWord h) hend
      intro b hb
      rwa [atWord, Option.mem_def.1 hb, Option.any_some] at hword

theorem toWord_of_halts (hh : h.Halts) : h.toWord = h := by
  cases hrest : h.rest with
  | nil =>
      refine toWord_of_none ?_
      simp [skipGap?, skipComment?, startsLine, startsBlock, punctuationLength, hrest]
  | cons b bs =>
      have hb : isWord b = true := hh b (by rw [peek?, hrest]; rfl)
      exact toWord_of_word (takes_skip (show h.rest = [b] ++ bs from hrest))
        (run_cons.2 ⟨hb, run_nil⟩) (List.cons_ne_nil _ _)

theorem walks_toWord (h : Head) : h.Walks h.toWord := by
  -- on the number of bytes left, which every stride makes smaller
  induction hn : h.rest.length using Nat.strongRecOn generalizing h with
  | ind n ih =>
      by_cases hh : h.Halts
      · rw [toWord_of_halts hh]
      · obtain ⟨k, hk⟩ := exists_stride hh
        rw [hk.toWord_eq]
        exact .head hk (ih _ (hn ▸ hk.length_lt) k rfl)

theorem Walks.toWord_eq (hk : h.Walks k) : h.toWord = k.toWord := by
  induction hk with
  | refl => rfl
  | tail _ hs ih => rw [ih, hs.toWord_eq]

theorem getElem?_source_pos_add (h : Head) (n : Nat) :
    h.source.bytes[h.pos + n]? = h.rest[n]? := by
  rw [h.rest_eq, List.getElem?_drop]

/-- A letter or digit that strides pass over stands in one of the comments passed
over. -/
theorem Walks.exists_commentText {i : Nat} {b : UInt8} (hl : h.Walks l) (hi : h.pos ≤ i)
    (hlt : i < l.pos) (hb : h.source.bytes[i]? = some b) (hword : isWord b = true) :
    ∃ j k w, h.Walks j ∧ j.Takes w k ∧ CommentText w k.rest ∧ k.Walks l ∧
      j.pos ≤ i ∧ i < k.pos := by
  induction hl using Relation.ReflTransGen.head_induction_on with
  | refl => omega
  | @head h k hs hkl ih =>
      by_cases hik : i < k.pos
      · cases hs with
        | @comment w hw hcomment => exact ⟨h, k, w, .refl, hw, hcomment, hkl, hi, hik⟩
        | @byte a ha hnot _ =>
            -- the stride passes over this one byte
            have hpos : k.pos = h.pos + 1 := ha.pos_eq
            obtain rfl : i = h.pos + 0 := by omega
            rw [getElem?_source_pos_add, ha.rest_eq] at hb
            obtain rfl : a = b := Option.some.inj hb
            rw [hword] at hnot
            cases hnot
      · rw [← hs.source_eq] at hb
        obtain ⟨j, m, w, hj, hw⟩ := ih (Nat.not_lt.1 hik) hb
        exact ⟨j, m, w, .head hs hj, hw⟩

/-- What `toWord` does, told by strides from the head: they lead to where it ends and
stop only there, and until then there is always exactly one next stride. -/
structure FindsWord (h : Head) : Prop where
  walks : h.Walks h.toWord
  halts_iff : ∀ k, h.Walks k → (k.Halts ↔ k = h.toWord)
  strides : ∀ k, h.Walks k → ((∃! l, k.Stride l) ↔ ¬ k.Halts)
  words_in_comments : ∀ i b, h.pos ≤ i → i < h.toWord.pos → h.source.bytes[i]? = some b →
    isWord b = true → ∃ j k w, h.Walks j ∧ j.Takes w k ∧ CommentText w k.rest ∧
      k.Walks h.toWord ∧ j.pos ≤ i ∧ i < k.pos
  goes_on_iff : h.toWord.atEnd = false ↔ h.toWord.pos < h.source.size
  word_of_lt : h.toWord.pos < h.source.size →
    ∃ b, h.source.bytes[h.toWord.pos]? = some b ∧ isWord b = true
  again : h.toWord.toWord = h.toWord

/-- The stretches of `toWord` and strides lead to the same place. -/
theorem findsWord (h : Head) : h.FindsWord := by
  have hsource : h.toWord.source = h.source := (reaches_toWord h).source_eq
  have hsize : h.toWord.rest.length = h.source.size - h.toWord.pos := by
    rw [length_rest, hsource]
  have hgoes : h.toWord.atEnd = false ↔ h.toWord.pos < h.source.size := by
    rw [atEnd, List.isEmpty_eq_false_iff, ← List.length_pos_iff, hsize, Nat.sub_pos_iff_lt]
  refine ⟨walks_toWord h, fun k hk => ⟨fun hh => ?_, ?_⟩, fun k _ => ⟨?_, fun hh => ?_⟩,
    fun i b hi hlt hb hword => (walks_toWord h).exists_commentText hi hlt hb hword, hgoes,
    fun hlt => ?_, toWord_of_halts (halts_toWord h)⟩
  · rw [hk.toWord_eq, toWord_of_halts hh]
  · rintro rfl
    exact halts_toWord h
  · rintro ⟨l, hl, -⟩
    exact hl.not_halts
  · obtain ⟨l, hl⟩ := exists_stride hh
    exact ⟨l, hl, fun m hm => hm.unique hl⟩
  · obtain ⟨b, bs, hrest⟩ := List.exists_cons_of_length_pos (by omega : 0 < h.toWord.rest.length)
    refine ⟨b, ?_, halts_toWord h b (by rw [peek?, hrest]; rfl)⟩
    rw [← hsource, ← Nat.add_zero h.toWord.pos, getElem?_source_pos_add, hrest]
    rfl

/-- The mark that opens a block comment does not end it, and newline bytes belong to
the line comment in front of them. -/
example : (Head.start (.ofString "/ /*/ a */é\r// b\r\nc")).toWord.pos = 19 := by cbv

end Head

end UniformBlock
