import UniformBlock.Proofs.Lines

/-!
# Offsets and positions

The position of an offset names its line and its column, and the offset can be
computed back from them (`Pinpoints`): it is the number of bytes of the lines
before, plus the number of bytes of the characters before it in its own line.
Positions are ordered as their offsets are.

Line and column are words of 32 bits. In a text of fewer than `2 ^ 32` bytes both
fit, with two exceptions: the end of a text of `2 ^ 32 - 1` line feeds lies on
line `2 ^ 32`, and the end of one line of as many one-byte characters in column
`2 ^ 32`; the word is zero there (`Brims`). Zero is no line or column of another
place, so positions still tell all offsets apart.

An offset inside a character has the column behind that character, not the column
of the character itself (`column_of_inside`): the first byte has been counted.
-/

namespace UniformBlock

open Ascii Utf8 Text

namespace Position

/-! ## Counting behind bytes -/

theorem lastLine_concat (bs : List UInt8) (b : UInt8) :
    lastLine (bs ++ [b]) = if b == lineFeed then [] else b :: lastLine bs := by
  by_cases hb : b = lineFeed <;> simp [lastLine, hb]

theorem charStarts_cons (b : UInt8) (bs : List UInt8) :
    charStarts (b :: bs) = charStarts bs + if isContinuation b then 0 else 1 := by
  cases hb : isContinuation b <;> simp [charStarts, hb]

/-- Line and column behind one more byte. -/
def pass (mark : UInt32 × UInt32) (b : UInt8) : UInt32 × UInt32 :=
  if b == lineFeed then (mark.1 + 1, 1)
  else if isContinuation b then mark
  else (mark.1, mark.2 + 1)

theorem foldl_pass (bs : List UInt8) :
    bs.foldl pass (1, 1) =
      ((1 + bs.count lineFeed).toUInt32, (1 + charStarts (lastLine bs)).toUInt32) := by
  have hsucc (n : Nat) : (1 + (n + 1)).toUInt32 = (1 + n).toUInt32 + 1 :=
    UInt32.ofNat_add (1 + n) 1
  induction bs using List.reverseRecOn with
  | nil => rfl
  | append_singleton bs b ih =>
      rw [List.foldl_append, ih, List.foldl_cons, List.foldl_nil, pass, lastLine_concat,
        List.count_append, List.count_singleton]
      by_cases hfeed : (b == lineFeed) = true
      · rw [if_pos hfeed, if_pos hfeed, if_pos hfeed, hsucc]
        rfl
      · rw [if_neg hfeed, if_neg hfeed, if_neg hfeed, charStarts_cons]
        by_cases hcont : isContinuation b = true
        · rw [if_pos hcont, if_pos hcont]
          rfl
        · rw [if_neg hcont, if_neg hcont, hsucc]
          rfl

theorem getElem?_bytes (s : String) {i : Nat} (h : i < s.utf8ByteSize) :
    (bytes s)[i]? = some (s.getUTF8Byte ⟨i⟩ h) := by
  have hbytes : s.toByteArray = (bytes s).toByteArray := String.utf8Encode_toList.symm
  simp [String.getUTF8Byte, hbytes]

theorem passBytes_eq (s : String) (n i : Nat) (line column : UInt32) :
    passBytes s n i line column = (((bytes s).drop i).take n).foldl pass (line, column) := by
  induction n generalizing i line column with
  | zero => rfl
  | succ n ih =>
      rw [passBytes]
      by_cases hi : i < s.utf8ByteSize
      · have hdrop : (bytes s).drop i = s.getUTF8Byte ⟨i⟩ hi :: (bytes s).drop (i + 1) := by
          rw [List.drop_eq_getElem?_toList_append, getElem?_bytes s hi]
          rfl
        rw [dif_pos hi, hdrop, List.take_succ_cons, List.foldl_cons, pass]
        simp only [ih]
        split
        · rfl
        · split <;> rfl
      · rw [dif_neg hi, List.drop_eq_nil_of_le (by rw [length_bytes]; omega)]
        rfl

/-- One pass finds the same position. -/
theorem ofText_eq_resolve (s : String) (offset : Nat) :
    ofText s offset = resolve (.ofString s) offset := by
  rw [ofText, resolve, Source.size_ofString, passBytes_eq, List.drop_zero, foldl_pass]
  rfl

/-! ## Counting behind characters -/

theorem lastLine_append_of_notMem (bs : List UInt8) {ds : List UInt8} (h : lineFeed ∉ ds) :
    lastLine (bs ++ ds) = ds.reverse ++ lastLine bs := by
  rw [lastLine, List.reverse_append, List.takeWhile_append_of_pos]
  · rfl
  · intro d hd
    rw [bne_iff_ne]
    rintro rfl
    exact h (List.mem_reverse.1 hd)

theorem charStarts_append (bs ds : List UInt8) :
    charStarts (bs ++ ds) = charStarts bs + charStarts ds :=
  List.countP_append

/-- However much of a character has been passed, it began once. -/
theorem charStarts_take_utf8EncodeChar (c : Char) {n : Nat} (hn : 0 < n) :
    charStarts ((String.utf8EncodeChar c).take n) = 1 := by
  obtain ⟨m, rfl⟩ := Nat.exists_eq_add_one.2 hn
  cases hc : String.utf8EncodeChar c with
  | nil => exact absurd hc String.utf8EncodeChar_ne_nil
  | cons b bs =>
      obtain ⟨hfirst, hmore, -⟩ := utf8EncodeChar_spec hc
      have hzero : charStarts (bs.take m) = 0 :=
        List.countP_eq_zero.2 fun x hx => by simp [hmore x (List.mem_of_mem_take hx)]
      rw [List.take_succ_cons, charStarts_cons, hzero, hfirst]
      rfl

/-- Every character begins once. -/
theorem charStarts_encode (cs : List Char) : charStarts (encode cs) = cs.length := by
  induction cs with
  | nil => rfl
  | cons c cs ih =>
      have hc := charStarts_take_utf8EncodeChar c c.utf8Size_pos
      rw [List.take_of_length_le (by rw [String.length_utf8EncodeChar])] at hc
      rw [encode_cons, charStarts_append, hc, ih, List.length_cons, Nat.add_comm]

variable {cs : List Char} {pre : List (List Char)} {run : List Char}

theorem lastLine_encode (h : Breaks cs pre run) : lastLine (encode cs) = (encode run).reverse := by
  induction h with
  | nil => rfl
  | feed =>
      rw [encode_append]
      exact lastLine_concat _ lineFeed
  | @char cs pre run c _ hc ih =>
      rw [encode_append, encode_append, lastLine_append_of_notMem _ (lineFeed_notMem_encode hc), ih,
        List.reverse_append]

theorem count_lineFeed_encode (h : Breaks cs pre run) :
    (encode cs).count lineFeed = pre.length := by
  induction h with
  | nil => rfl
  | feed _ ih =>
      rw [encode_append, List.count_append, ih, List.length_append]
      rfl
  | @char cs pre run c _ hc ih =>
      rw [encode_append, List.count_append, ih,
        List.count_eq_zero.2 (lineFeed_notMem_encode hc), Nat.add_zero]

/-! ## Offsets between characters -/

/-- The text `s` has, before the offset `o`, the complete lines `pre` and the
beginning `run` of one more. -/
def BreaksAt (s : String) (o : Nat) (pre : List (List Char)) (run : List Char) : Prop :=
  ∃ cs ds, s.toList = cs ++ ds ∧ (encode cs).length = o ∧ Breaks cs pre run

variable {s : String} {o o' : Nat} {pre' : List (List Char)} {run' : List Char}

theorem exists_breaksAt (h : (⟨o⟩ : String.Pos.Raw).IsValid s) :
    ∃ pre run, BreaksAt s o pre run := by
  obtain ⟨t, u, rfl, ho⟩ := String.Pos.Raw.isValid_iff_exists_append.1 h
  rw [String.Pos.Raw.ext_iff, String.byteIdx_rawEndPos, ← length_bytes] at ho
  obtain ⟨pre, run, hbreaks⟩ := exists_breaks t.toList
  exact ⟨pre, run, t.toList, u.toList, String.toList_append, ho.symm, hbreaks⟩

theorem BreaksAt.offset_eq (h : BreaksAt s o pre run) :
    o = bytesOfLines pre + (encode run).length := by
  obtain ⟨cs, ds, -, rfl, hbreaks⟩ := h
  exact hbreaks.length_encode

theorem BreaksAt.length_add_length_le (h : BreaksAt s o pre run) :
    pre.length + run.length ≤ o := by
  rw [h.offset_eq]
  exact Nat.add_le_add (length_le_bytesOfLines pre) (length_le_length_encode run)

theorem BreaksAt.offset_le (h : BreaksAt s o pre run) : o ≤ s.utf8ByteSize := by
  obtain ⟨cs, ds, hs, rfl, -⟩ := h
  rw [← length_bytes, bytes, hs, encode_append, List.length_append]
  exact Nat.le_add_right _ _

theorem BreaksAt.resolve_eq (h : BreaksAt s o pre run) :
    resolve (.ofString s) o = ⟨o, (1 + pre.length).toUInt32, (1 + run.length).toUInt32⟩ := by
  have hle := h.offset_le
  obtain ⟨cs, ds, hs, rfl, hbreaks⟩ := h
  have hbefore : (Source.ofString s).bytes.take (encode cs).length = encode cs := by
    change (encode s.toList).take _ = _
    rw [hs, encode_append, List.take_left]
  have hcolumn : charStarts (encode run).reverse = run.length := by
    rw [charStarts, List.countP_reverse]
    exact charStarts_encode run
  simp only [resolve, Source.size_ofString, Nat.min_eq_left hle, hbefore]
  rw [count_lineFeed_encode hbreaks, lastLine_encode hbreaks, hcolumn]

/-- The open line goes on behind the offset. -/
theorem BreaksAt.lines_eq (h : BreaksAt s o pre run) :
    ∃ more later, lines s = pre ++ (run ++ more) :: later := by
  obtain ⟨cs, ds, hs, -, hbreaks⟩ := h
  obtain ⟨more, later, hds⟩ := List.exists_cons_of_ne_nil (List.splitOn_ne_nil '\n' ds)
  exact ⟨more, later, by rw [lines, hs, hbreaks.lines_append, hds]; rfl⟩

/-- Of two places in a text the later one has more complete lines, or as many and
more of the open one. -/
theorem BreaksAt.lt (h : BreaksAt s o pre run) (h' : BreaksAt s o' pre' run') (hlt : o < o') :
    pre.length < pre'.length ∨ pre.length = pre'.length ∧ run.length < run'.length := by
  obtain ⟨cs, ds, hs, rfl, hbreaks⟩ := h
  obtain ⟨cs', ds', hs', rfl, hbreaks'⟩ := h'
  rcases List.append_eq_append_iff.1 (hs.symm.trans hs') with ⟨w, rfl, -⟩ | ⟨w, rfl, -⟩
  · by_cases hw : '\n' ∈ w
    · left
      rw [← hbreaks.count_eq, ← hbreaks'.count_eq, List.count_append]
      exact Nat.lt_add_of_pos_right (List.count_pos_iff.2 hw)
    · right
      have hsame := (hbreaks.append hw).splitOn_eq.symm.trans hbreaks'.splitOn_eq
      obtain ⟨rfl, hrun⟩ := List.append_inj' hsame rfl
      obtain rfl := (List.cons.inj hrun).1
      refine ⟨rfl, ?_⟩
      cases w with
      | nil => exact absurd hlt (by rw [List.append_nil]; exact Nat.lt_irrefl _)
      | cons c w => simp
  · rw [encode_append, List.length_append] at hlt
    omega

/-! ## Exact positions -/

/-- The position `p` is the place of the offset `o` in the text `s`: the offset is
found again from the line and the column. -/
structure Pinpoints (s : String) (o : Nat) (p : Position) : Prop where
  offset_eq : p.offset = o
  line_pos : 1 ≤ p.line.toNat
  line_le : p.line.toNat ≤ (Lines.ofSource (.ofString s)).count
  column_pos : 1 ≤ p.column.toNat
  exists_line : ∃ line, (lines s)[p.line.toNat - 1]? = some line ∧
    p.column.toNat - 1 ≤ line.length ∧
    o = bytesOfLines ((lines s).take (p.line.toNat - 1)) +
      (encode (line.take (p.column.toNat - 1))).length
  start_eq : (Lines.ofSource (.ofString s)).starts[p.line.toNat - 1]? =
    some (bytesOfLines ((lines s).take (p.line.toNat - 1)))

/-- The position `p` stands before `q`: on an earlier line, or on the same line in
an earlier column. -/
def Precedes (p q : Position) : Prop := p.line < q.line ∨ p.line = q.line ∧ p.column < q.column

/-- The offset `o` is the end of a text whose last line, or whose last column,
is one more than a word can hold. -/
def Brims (s : String) (o : Nat) : Prop :=
  o = s.utf8ByteSize ∧ o + 1 = UInt32.size ∧
    ((∀ c ∈ s.toList, c = '\n') ∨ ∀ c ∈ s.toList, c ≠ '\n' ∧ c.utf8Size = 1)

/-- Line and column fit everywhere else. -/
theorem BreaksAt.lt_size (h : BreaksAt s o pre run) (hs : s.utf8ByteSize < UInt32.size)
    (hbrims : ¬ Brims s o) : 1 + pre.length < UInt32.size ∧ 1 + run.length < UInt32.size := by
  have hle := h.offset_le
  have hsum := h.length_add_length_le
  by_contra hlarge
  have hend : o = s.utf8ByteSize := by omega
  have hfull : o + 1 = UInt32.size := by omega
  refine hbrims ⟨hend, hfull, ?_⟩
  obtain ⟨cs, ds, hcs, rfl, hbreaks⟩ := h
  have hds : ds = [] := by
    rw [← length_bytes, bytes, hcs, encode_append, List.length_append] at hend
    have := length_le_length_encode ds
    exact List.length_eq_zero_iff.1 (by omega)
  have hlength := length_le_length_encode cs
  rw [hcs, hds, List.append_nil]
  by_cases hfeeds : pre.length = (encode cs).length
  · left
    have hcount : cs.count '\n' = cs.length := by
      have := List.count_le_length (a := '\n') (l := cs)
      rw [hbreaks.count_eq] at this ⊢
      omega
    exact fun c hc => (List.count_eq_length.1 hcount c hc).symm
  · right
    obtain rfl : pre = [] := List.length_eq_zero_iff.1 (by omega)
    have hnone : '\n' ∉ cs := List.count_eq_zero.1 hbreaks.count_eq
    have hrun : [cs] = [run] := (List.splitOn_eq_singleton hnone).symm.trans hbreaks.splitOn_eq
    obtain rfl := (List.cons.inj hrun).1
    have hone : ∀ c ∈ cs, c.utf8Size = 1 := utf8Size_eq_one_of_length_encode_le (by omega)
    exact fun c hc => ⟨fun heq => hnone (heq ▸ hc), hone c hc⟩

theorem BreaksAt.pinpoints (h : BreaksAt s o pre run) (hline : 1 + pre.length < UInt32.size)
    (hcolumn : 1 + run.length < UInt32.size) :
    Pinpoints s o (resolve (.ofString s) o) := by
  have hl : (1 + pre.length).toUInt32.toNat = 1 + pre.length := UInt32.toNat_ofNat_of_lt' hline
  have hc : (1 + run.length).toUInt32.toNat = 1 + run.length := UInt32.toNat_ofNat_of_lt' hcolumn
  obtain ⟨more, later, hlines⟩ := h.lines_eq
  have hlt : pre.length < (lines s).length := by
    rw [hlines, List.length_append, List.length_cons]
    omega
  rw [h.resolve_eq]
  refine ⟨rfl, ?_, ?_, ?_, ⟨run ++ more, ?_, ?_, ?_⟩, ?_⟩ <;>
    simp only [hl, hc, Nat.add_sub_cancel_left]
  · exact Nat.le_add_right _ _
  · rw [Lines.count_ofString]
    omega
  · exact Nat.le_add_right _ _
  · rw [hlines]
    simp
  · rw [List.length_append]
    exact Nat.le_add_right _ _
  · rw [hlines, List.take_left, List.take_left]
    exact h.offset_eq
  · exact Lines.getElem?_starts_ofString s hlt

/-- What resolving says about the places of a text. -/
structure Exact (s : String) : Prop where
  pinpoints : ∀ o, (⟨o⟩ : String.Pos.Raw).IsValid s → ¬ Brims s o →
    Pinpoints s o (resolve (.ofString s) o)
  precedes : ∀ o o', (⟨o⟩ : String.Pos.Raw).IsValid s → (⟨o'⟩ : String.Pos.Raw).IsValid s →
    o < o' → ¬ Brims s o' → Precedes (resolve (.ofString s) o) (resolve (.ofString s) o')
  separates : ∀ o o', (⟨o⟩ : String.Pos.Raw).IsValid s → (⟨o'⟩ : String.Pos.Raw).IsValid s →
    o ≠ o' → ¬ ((resolve (.ofString s) o).line = (resolve (.ofString s) o').line ∧
      (resolve (.ofString s) o).column = (resolve (.ofString s) o').column)
  resolve_of_lt : ∀ o, s.utf8ByteSize < o →
    resolve (.ofString s) o = resolve (.ofString s) s.utf8ByteSize

theorem BreaksAt.precedes (h : BreaksAt s o pre run) (h' : BreaksAt s o' pre' run')
    (hs : s.utf8ByteSize < UInt32.size) (hlt : o < o') (hbrims : ¬ Brims s o') :
    Precedes (resolve (.ofString s) o) (resolve (.ofString s) o') := by
  have hle := h'.offset_le
  have hsum := h.length_add_length_le
  obtain ⟨hline', hcolumn'⟩ := h'.lt_size hs hbrims
  rw [h.resolve_eq, h'.resolve_eq, Precedes]
  simp only [UInt32.lt_iff_toNat_lt, Nat.toUInt32]
  rw [UInt32.toNat_ofNat_of_lt' hline', UInt32.toNat_ofNat_of_lt' hcolumn',
    UInt32.toNat_ofNat_of_lt' (by omega), UInt32.toNat_ofNat_of_lt' (by omega)]
  rcases h.lt h' hlt with hless | ⟨hsame, hless⟩
  · left
    omega
  · right
    exact ⟨by rw [hsame], by omega⟩

/-- One more than a word is a word of its own, up to the largest. -/
theorem toUInt32_one_add_inj {a b : Nat} (ha : a < UInt32.size) (hb : b < UInt32.size)
    (h : (1 + a).toUInt32 = (1 + b).toUInt32) : a = b := by
  have hmod : (1 + a) % 2 ^ 32 = (1 + b) % 2 ^ 32 := by
    rw [← UInt32.toNat_ofNat', ← UInt32.toNat_ofNat']
    exact congrArg UInt32.toNat h
  have hsize : UInt32.size = 2 ^ 32 := rfl
  omega

theorem BreaksAt.offset_eq_of_same (h : BreaksAt s o pre run) (h' : BreaksAt s o' pre' run')
    (hs : s.utf8ByteSize < UInt32.size)
    (hline : (resolve (.ofString s) o).line = (resolve (.ofString s) o').line)
    (hcolumn : (resolve (.ofString s) o).column = (resolve (.ofString s) o').column) :
    o = o' := by
  have hle := h.offset_le
  have hle' := h'.offset_le
  have hsum := h.length_add_length_le
  have hsum' := h'.length_add_length_le
  rw [h.resolve_eq, h'.resolve_eq] at hline hcolumn
  have hpre := toUInt32_one_add_inj (by omega) (by omega) hline
  have hrun := toUInt32_one_add_inj (by omega) (by omega) hcolumn
  rcases Nat.lt_trichotomy o o' with hlt | heq | hgt
  · have := h.lt h' hlt
    omega
  · exact heq
  · have := h'.lt h hgt
    omega

/-- In a text shorter than `2 ^ 32` bytes positions are exact. -/
theorem exact_of_lt {s : String} (hs : s.utf8ByteSize < UInt32.size) : Exact s where
  pinpoints o ho hbrims := by
    obtain ⟨pre, run, h⟩ := exists_breaksAt ho
    obtain ⟨hline, hcolumn⟩ := h.lt_size hs hbrims
    exact h.pinpoints hline hcolumn
  precedes o o' ho ho' hlt hbrims := by
    obtain ⟨pre, run, h⟩ := exists_breaksAt ho
    obtain ⟨pre', run', h'⟩ := exists_breaksAt ho'
    exact h.precedes h' hs hlt hbrims
  separates o o' ho ho' hne := by
    obtain ⟨pre, run, h⟩ := exists_breaksAt ho
    obtain ⟨pre', run', h'⟩ := exists_breaksAt ho'
    rintro ⟨hline, hcolumn⟩
    exact hne (h.offset_eq_of_same h' hs hline hcolumn)
  resolve_of_lt o ho := by
    simp only [resolve, Source.size_ofString, Nat.min_eq_right (Nat.le_of_lt ho), Nat.min_self]

/-- The second of two lines begins with a character of two bytes. -/
theorem exact_accented :
    Exact "a\né b" ∧ Pinpoints "a\né b" 4 ⟨4, 2, 2⟩ ∧
      Precedes (resolve (.ofString "a\né b") 1) ⟨4, 2, 2⟩ := by
  have hexact : Exact "a\né b" := exact_of_lt (by decide)
  have hfour : (⟨4⟩ : String.Pos.Raw).IsValid "a\né b" :=
    String.Pos.Raw.isValid_iff_exists_append.2 ⟨"a\né", " b", by decide, by decide⟩
  have hone : (⟨1⟩ : String.Pos.Raw).IsValid "a\né b" :=
    String.Pos.Raw.isValid_iff_exists_append.2 ⟨"a", "\né b", by decide, by decide⟩
  have hbrims : ¬ Brims "a\né b" 4 := fun h => absurd h.2.1 (by decide)
  have hresolve : resolve (.ofString "a\né b") 4 = ⟨4, 2, 2⟩ := by decide +kernel
  have hpinpoints := hexact.pinpoints 4 hfour hbrims
  have hprecedes := hexact.precedes 1 4 hone hfour (by decide) hbrims
  rw [hresolve] at hpinpoints hprecedes
  exact ⟨hexact, hpinpoints, hprecedes⟩

/-! ## The end of the words -/

/-- A text of line feeds alone. -/
def lineFeeds (n : Nat) : String := String.ofList (List.replicate n '\n')

theorem breaks_replicate (n : Nat) :
    Breaks (List.replicate n '\n') (List.replicate n []) [] := by
  induction n with
  | zero => exact .nil
  | succ n ih =>
      rw [List.replicate_succ', List.replicate_succ']
      exact ih.feed

theorem length_encode_replicate {c : Char} (hc : c.utf8Size = 1) (n : Nat) :
    (encode (List.replicate n c)).length = n := by
  induction n with
  | zero => rfl
  | succ n ih =>
      rw [List.replicate_succ, length_encode_cons, ih, hc]
      exact Nat.add_comm 1 n

theorem breaksAt_lineFeeds (n : Nat) : BreaksAt (lineFeeds n) n (List.replicate n []) [] :=
  ⟨List.replicate n '\n', [], by rw [lineFeeds, String.toList_ofList, List.append_nil],
    length_encode_replicate rfl n, breaks_replicate n⟩

theorem utf8ByteSize_lineFeeds (n : Nat) : (lineFeeds n).utf8ByteSize = n := by
  rw [← length_bytes, bytes, lineFeeds, String.toList_ofList, length_encode_replicate rfl]

/-- The end of `2 ^ 32 - 1` line feeds is on no line. -/
theorem not_pinpoints_lineFeeds :
    (lineFeeds 4294967295).utf8ByteSize < UInt32.size ∧
      (⟨4294967295⟩ : String.Pos.Raw).IsValid (lineFeeds 4294967295) ∧
      ¬ Pinpoints (lineFeeds 4294967295) 4294967295
        (resolve (.ofString (lineFeeds 4294967295)) 4294967295) := by
  have hsize := utf8ByteSize_lineFeeds 4294967295
  have hresolve := (breaksAt_lineFeeds 4294967295).resolve_eq
  generalize lineFeeds 4294967295 = s at hsize hresolve ⊢
  rw [List.length_replicate] at hresolve
  refine ⟨by rw [hsize]; decide, ?_, ?_⟩
  · refine String.Pos.Raw.isValid_iff_exists_append.2 ⟨s, "", (String.append_empty).symm, ?_⟩
    rw [String.Pos.Raw.ext_iff, String.byteIdx_rawEndPos, hsize]
  · intro h
    have hline := h.line_pos
    rw [hresolve] at hline
    exact absurd hline (by decide)

/-! ## Offsets inside characters -/

/-- The offset `o` lies inside the character that begins at the offset `c`. -/
def Inside (s : String) (c o : Nat) : Prop :=
  ∃ before char after, s = before ++ String.singleton char ++ after ∧
    before.utf8ByteSize = c ∧ c < o ∧ o < c + char.utf8Size

/-- The bytes before an offset inside a character: those of the text before the
character, and the first ones of the character. -/
theorem take_bytes_of_inside (before after : String) {char : Char} {n : Nat}
    (hn : n ≤ char.utf8Size) :
    (bytes (before ++ String.singleton char ++ after)).take (before.utf8ByteSize + n) =
      bytes before ++ (String.utf8EncodeChar char).take n := by
  have hchar : bytes (String.singleton char) = String.utf8EncodeChar char := by
    rw [bytes, String.toList_singleton, encode_cons, encode_nil, List.append_nil]
  rw [bytes_append, bytes_append, hchar, ← length_bytes, List.append_assoc,
    List.take_length_add_append, List.take_append_of_le_length]
  rwa [String.length_utf8EncodeChar]

/-- Line and column behind the first bytes of a character that is no line feed. -/
theorem resolve_inside (before after : String) {char : Char} {n : Nat} (hchar : char ≠ '\n')
    (hn : n ≤ char.utf8Size) :
    resolve (.ofString (before ++ String.singleton char ++ after)) (before.utf8ByteSize + n) =
      ⟨before.utf8ByteSize + n, (1 + (bytes before).count lineFeed).toUInt32,
        (1 + (charStarts ((String.utf8EncodeChar char).take n) +
          charStarts (lastLine (bytes before)))).toUInt32⟩ := by
  have hfeed : lineFeed ∉ (String.utf8EncodeChar char).take n := by
    intro hmem
    have hencoded := lineFeed_notMem_encode hchar
    rw [encode_cons, encode_nil, List.append_nil] at hencoded
    exact hencoded (List.mem_of_mem_take hmem)
  have hle : before.utf8ByteSize + n ≤ (before ++ String.singleton char ++ after).utf8ByteSize := by
    rw [String.utf8ByteSize_append, String.utf8ByteSize_append, String.utf8ByteSize_singleton]
    omega
  have htake := take_bytes_of_inside before after hn
  simp only [resolve, Source.size_ofString, Nat.min_eq_left hle]
  change Position.mk _ (1 + ((bytes _).take _).count lineFeed).toUInt32
    (1 + charStarts (lastLine ((bytes _).take _))).toUInt32 = _
  rw [htake, List.count_append, List.count_eq_zero.2 hfeed, Nat.add_zero,
    lastLine_append_of_notMem _ hfeed, charStarts_append, charStarts, List.countP_reverse]
  rfl

/-- An offset inside a character is taken for the place behind the character: its
column is one more than that of the character. -/
theorem column_of_inside {s : String} {c o : Nat} (h : Inside s c o) :
    (resolve (.ofString s) o).line = (resolve (.ofString s) c).line ∧
      (resolve (.ofString s) o).column = (resolve (.ofString s) c).column + 1 ∧
      (resolve (.ofString s) o).column ≠ (resolve (.ofString s) c).column := by
  obtain ⟨before, char, after, rfl, rfl, hlt, hlt'⟩ := h
  obtain ⟨n, rfl⟩ := Nat.exists_eq_add_of_le (Nat.le_of_lt hlt)
  have hn : 0 < n := by omega
  have hchar : char ≠ '\n' := by
    rintro rfl
    have hone : '\n'.utf8Size = 1 := rfl
    omega
  have hinside := resolve_inside before after hchar (show n ≤ char.utf8Size by omega)
  have hfirst := resolve_inside before after hchar (Nat.zero_le _)
  rw [charStarts_take_utf8EncodeChar char hn] at hinside
  rw [Nat.add_zero] at hfirst
  have hcolumn (m : Nat) : (1 + (1 + m)).toUInt32 = (1 + (0 + m)).toUInt32 + 1 := by
    rw [Nat.zero_add, Nat.add_comm 1 (1 + m)]
    exact UInt32.ofNat_add (1 + m) 1
  rw [hinside, hfirst]
  refine ⟨rfl, hcolumn _, ?_⟩
  change (1 + (1 + _)).toUInt32 ≠ (1 + (0 + _)).toUInt32
  rw [hcolumn]
  simp

/-- The second byte of four on a second line. -/
theorem column_of_inside_smile :
    Inside "a\n😀" 2 3 ∧
      (resolve (.ofString "a\n😀") 3).column = (resolve (.ofString "a\n😀") 2).column + 1 := by
  have h : Inside "a\n😀" 2 3 := ⟨"a\n", '😀', "", by decide, by decide, by decide, by decide⟩
  exact ⟨h, (column_of_inside h).2.1⟩

/-- The position of the second byte of a character is not that of the character. -/
theorem not_attributed_accent :
    Inside "é" 0 1 ∧
      ¬ ((resolve (.ofString "é") 1).line = (resolve (.ofString "é") 0).line ∧
        (resolve (.ofString "é") 1).column = (resolve (.ofString "é") 0).column) :=
  ⟨⟨"", 'é', "", by decide, by decide, by decide, by decide⟩, by decide +kernel⟩

end Position

end UniformBlock
