import Mathlib.Data.List.DropRight
import UniformBlock.Proofs.Position
import UniformBlock.Proofs.Truncation

/-!
# Lines that are shown

The index of a source answers with the lines of the text (`line?_ofString`): a text
is its lines with a line feed between any two of them, so that the bytes between
two places where lines begin are those of one line and of its line feed. A slice of
them is never refused (`slice?_of_line`), since line feeds are characters of one byte.

An excerpt shows the line that holds an offset. Line and column are counted by
`Position.resolve` and the line is looked up by `Lines.line?`; the two agree
because every offset, also one inside a character, is counted like an offset
between two characters of the same line (`exists_breaksAt_of_le`). Only where the
number of the line is no word is there nothing to show.
-/

namespace UniformBlock

open Ascii Utf8 Text

/-! ## Lines of a text -/

namespace Text

/-- The characters of some lines around one of them. -/
theorem exists_intercalate_eq {ls : List (List Char)} {k : Nat} {line : List Char}
    (h : ls[k]? = some line) :
    ∃ cs ds, ['\n'].intercalate ls = cs ++ (line ++ ds) ∧
      (encode cs).length = bytesOfLines (ls.take k) ∧
      (k + 1 = ls.length ∧ ds = [] ∨ k + 1 < ls.length ∧ ∃ es, ds = '\n' :: es) := by
  induction ls generalizing k with
  | nil => simp at h
  | cons l ls ih =>
      cases k with
      | zero =>
          obtain rfl : l = line := by simpa using h
          cases ls with
          | nil => exact ⟨[], [], by simp, rfl, .inl ⟨rfl, rfl⟩⟩
          | cons next ls =>
              refine ⟨[], '\n' :: ['\n'].intercalate (next :: ls), ?_, rfl, .inr ⟨by simp, _, rfl⟩⟩
              rw [List.intercalate_cons_cons, List.append_assoc]
              rfl
      | succ k =>
          rw [List.getElem?_cons_succ] at h
          obtain ⟨cs, ds, heq, hlength, hend⟩ := ih h
          have hne : ls ≠ [] := by
            rintro rfl
            simp at h
          refine ⟨l ++ '\n' :: cs, ds, ?_, ?_, ?_⟩
          · rw [List.intercalate_cons_of_ne_nil hne, heq]
            simp
          · have hfeed : '\n'.utf8Size = 1 := rfl
            rw [List.take_succ_cons, bytesOfLines, encode_append, List.length_append,
              length_encode_cons, hlength, hfeed]
            omega
          · rw [List.length_cons]
            rcases hend with ⟨hlast, hds⟩ | ⟨hmore, hds⟩
            · exact .inl ⟨by omega, hds⟩
            · exact .inr ⟨by omega, hds⟩

variable {s : String} {k : Nat} {line : List Char}

theorem exists_toList_eq (h : (lines s)[k]? = some line) :
    ∃ cs ds, s.toList = cs ++ (line ++ ds) ∧
      (encode cs).length = bytesOfLines ((lines s).take k) ∧
      (k + 1 = (lines s).length ∧ ds = [] ∨ k + 1 < (lines s).length ∧ ∃ es, ds = '\n' :: es) := by
  have hjoin : ['\n'].intercalate (lines s) = s.toList := List.intercalate_splitOn '\n'
  rw [← hjoin]
  exact exists_intercalate_eq h

theorem mem_of_mem_line (h : (lines s)[k]? = some line) {c : Char} (hc : c ∈ line) :
    c ∈ s.toList := by
  obtain ⟨cs, ds, hs, -, -⟩ := exists_toList_eq h
  rw [hs]
  exact List.mem_append_right _ (List.mem_append_left _ hc)

/-- Carriage returns at the end left out. -/
def withoutReturns (line : List Char) : List Char := line.rdropWhile (· == '\r')

theorem withoutReturns_of_notMem (h : '\r' ∉ line) : withoutReturns line = line := by
  refine List.rdropWhile_eq_self_iff.2 fun hne heq => h ?_
  rw [← beq_iff_eq.1 heq]
  exact List.getLast_mem hne

end Text

namespace Lines

variable {s : String} {k : Nat} {line : List Char}

theorem trimReturns_ofList (cs : List Char) :
    trimReturns (String.ofList cs) = String.ofList (withoutReturns cs) := by
  rw [trimReturns, String.toList_ofList]
  rfl

/-- The bytes between the place where a line begins and its end are a slice that is not
refused: they lie between two characters, and are those of the line. -/
theorem slice?_of_line (h : (lines s)[k]? = some line) :
    (Source.ofString s).slice? (bytesOfLines ((lines s).take k))
        ((((ofSource (.ofString s)).starts[k + 1]?).map (· - 1)).getD s.utf8ByteSize) =
      some (String.ofList line) := by
  obtain ⟨cs, ds, hs, hlength, hend⟩ := exists_toList_eq h
  have hbytes : bytes s = encode cs ++ (encode line ++ encode ds) := by
    rw [bytes, hs, encode_append, encode_append]
  have hstop : (((ofSource (.ofString s)).starts[k + 1]?).map (· - 1)).getD s.utf8ByteSize =
      bytesOfLines ((lines s).take k) + (encode line).length := by
    rcases hend with ⟨hlast, rfl⟩ | ⟨hmore, -⟩
    · have hnone : (ofSource (.ofString s)).starts[k + 1]? = none := by
        refine Array.getElem?_eq_none ?_
        change count _ ≤ _
        rw [count_ofString, hlast]
      rw [hnone, Option.map_none, Option.getD_none, ← length_bytes, hbytes, List.length_append,
        List.length_append, hlength]
      rfl
    · have htake : (lines s).take (k + 1) = (lines s).take k ++ [line] := by
        rw [List.take_add_one, h]
        rfl
      rw [getElem?_starts_ofString s hmore, htake, bytesOfLines_concat]
      rfl
  have hslice : (Source.ofString s).slice? (encode cs).length
      ((encode cs).length + (encode line).length) = some (text (encode line)) :=
    Source.slice?_append hbytes ⟨line, rfl⟩ ⟨ds, rfl⟩
  rw [hstop, ← hlength, hslice, text_encode]

/-- The index answers with the lines of the text, without carriage returns at their
ends. -/
theorem line?_ofString (s : String) (n : UInt32) :
    (ofSource (.ofString s)).line? n =
      if n = 0 then none
      else ((lines s)[n.toNat - 1]?).map fun l => String.ofList (withoutReturns l) := by
  rw [line?]
  split
  · rfl
  · rename_i hzero
    have hpos : n.toNat ≠ 0 := fun h => hzero (UInt32.toNat_inj.1 h)
    cases hline : (lines s)[n.toNat - 1]? with
    | none =>
        have hnone : (ofSource (.ofString s)).starts[n.toNat - 1]? = none := by
          refine Array.getElem?_eq_none ?_
          change count _ ≤ _
          rw [count_ofString]
          exact List.getElem?_eq_none_iff.1 hline
        rw [hnone]
        rfl
    | some line =>
        have hlt : n.toNat - 1 < (lines s).length := (List.getElem?_eq_some_iff.1 hline).1
        have hnext : n.toNat - 1 + 1 = n.toNat := by omega
        have hslice := slice?_of_line hline
        rw [hnext, ← Source.size_ofString] at hslice
        have hsource : (ofSource (.ofString s)).source = .ofString s := rfl
        simp only [getElem?_starts_ofString s hlt, hsource, hslice, Option.map_some,
          trimReturns_ofList]

/-- An index whose lines begin inside a character is refused its slice. -/
example : Lines.line? ⟨.ofString "é", #[0, 2]⟩ 1 = none := by decide

end Lines

/-! ## Lines and columns of any offset -/

namespace Position

variable {s : String} {o : Nat} {pre : List (List Char)} {run : List Char}

/-- An offset lies between two characters or inside one. -/
theorem isValid_or_inside (ho : o ≤ s.utf8ByteSize) :
    (⟨o⟩ : String.Pos.Raw).IsValid s ∨ ∃ c, Inside s c o := by
  obtain ⟨rest, hrest⟩ := takeBytes_isPrefix o s.toList
  have hle := length_encode_takeBytes_le o s.toList
  have hs : s = String.ofList (takeBytes o s.toList) ++ String.ofList rest := by
    rw [← String.toList_inj, String.toList_append, String.toList_ofList, String.toList_ofList,
      hrest]
  have hsize : (String.ofList (takeBytes o s.toList)).utf8ByteSize =
      (encode (takeBytes o s.toList)).length := by
    rw [← length_bytes, bytes, String.toList_ofList]
  by_cases heq : (encode (takeBytes o s.toList)).length = o
  · refine .inl (String.Pos.Raw.isValid_iff_exists_append.2 ⟨_, _, hs, ?_⟩)
    rw [String.Pos.Raw.ext_iff, String.byteIdx_rawEndPos, hsize, heq]
  · right
    cases rest with
    | nil =>
        rw [List.append_nil] at hrest
        rw [hrest] at hle heq
        rw [← length_bytes, bytes] at ho
        omega
    | cons c rest =>
        have hlt := lt_of_takeBytes_append hrest
        refine ⟨_, _, c, String.ofList rest, ?_, hsize, by omega, hlt⟩
        rw [String.append_assoc, ← String.toList_inj]
        rw [← String.toList_inj] at hs
        simpa using hs

/-- An offset inside a character is counted like the offset behind it, which lies on
the same line. -/
theorem exists_breaksAt_of_inside {c : Nat} (h : Inside s c o) :
    ∃ o' pre run, BreaksAt s o' pre run ∧ bytesOfLines pre ≤ o ∧ o ≤ o' ∧
      (∃ char ∈ s.toList, 1 < char.utf8Size) ∧
      resolve (.ofString s) o = ⟨o, (1 + pre.length).toUInt32, (1 + run.length).toUInt32⟩ := by
  obtain ⟨before, char, after, rfl, rfl, hlt, hlt'⟩ := h
  obtain ⟨n, rfl⟩ := Nat.exists_eq_add_of_le (Nat.le_of_lt hlt)
  have hchar : char ≠ '\n' := by
    rintro rfl
    have hone : '\n'.utf8Size = 1 := rfl
    omega
  obtain ⟨pre, run, hbreaks⟩ := exists_breaks before.toList
  have hbehind : BreaksAt (before ++ String.singleton char ++ after)
      (before.utf8ByteSize + char.utf8Size) pre (run ++ [char]) := by
    refine ⟨before.toList ++ [char], after.toList, by simp, ?_, hbreaks.char hchar⟩
    rw [encode_append, List.length_append, length_encode_cons, encode_nil, ← length_bytes]
    rfl
  have hstart : before.utf8ByteSize = bytesOfLines pre + (encode run).length := by
    rw [← length_bytes]
    exact hbreaks.length_encode
  have hinside := resolve_inside before after hchar (show n ≤ char.utf8Size by omega)
  have hend := resolve_inside before after hchar (Nat.le_refl _)
  rw [charStarts_take_utf8EncodeChar char (by omega)] at hinside
  rw [charStarts_take_utf8EncodeChar char char.utf8Size_pos, hbehind.resolve_eq] at hend
  obtain ⟨-, hline, hcolumn⟩ := Position.mk.inj hend
  refine ⟨_, pre, run ++ [char], hbehind, by omega, by omega, ⟨char, by simp, by omega⟩, ?_⟩
  rw [hinside, hline, hcolumn]

/-- Every offset is counted like one between two characters of its line. -/
theorem exists_breaksAt_of_le (ho : o ≤ s.utf8ByteSize) :
    ∃ o' pre run, BreaksAt s o' pre run ∧ bytesOfLines pre ≤ o ∧ o ≤ o' ∧
      (o' = o ∨ ∃ char ∈ s.toList, 1 < char.utf8Size) ∧
      resolve (.ofString s) o = ⟨o, (1 + pre.length).toUInt32, (1 + run.length).toUInt32⟩ := by
  rcases isValid_or_inside ho with hvalid | ⟨c, hinside⟩
  · obtain ⟨pre, run, h⟩ := exists_breaksAt hvalid
    refine ⟨o, pre, run, h, ?_, Nat.le_refl o, .inl rfl, h.resolve_eq⟩
    rw [h.offset_eq]
    exact Nat.le_add_right _ _
  · obtain ⟨o', pre, run, h, hle, hle', hwide, hresolve⟩ := exists_breaksAt_of_inside hinside
    exact ⟨o', pre, run, h, hle, hle', .inr hwide, hresolve⟩

/-- The offset is the end of a text of so many line feeds that the number of its last
line is no word. -/
def LinesBrim (s : String) (o : Nat) : Prop := Brims s o ∧ ∀ c ∈ s.toList, c = '\n'

/-- The offset is the end of a line of so many characters that its column is no
word. -/
def ColumnsBrim (s : String) (o : Nat) : Prop := Brims s o ∧ ∀ c ∈ s.toList, c ≠ '\n'

theorem Brims.utf8Size_eq_one (h : Brims s o) : ∀ c ∈ s.toList, c.utf8Size = 1 := by
  intro c hc
  rcases h.2.2 with hfeeds | hothers
  · rw [hfeeds c hc]
    rfl
  · exact (hothers c hc).2

theorem BreaksAt.line_lt_size (h : BreaksAt s o pre run) (hs : s.utf8ByteSize < UInt32.size)
    (hbrim : ¬ LinesBrim s o) : 1 + pre.length < UInt32.size := by
  by_contra hlarge
  have hbrims : Brims s o := by
    by_contra hnot
    exact hlarge (h.lt_size hs hnot).1
  obtain ⟨cs, ds, hcs, rfl, hbreaks⟩ := h
  rcases hbrims.2.2 with hfeeds | hothers
  · exact hbrim ⟨hbrims, hfeeds⟩
  · have hnone : cs.count '\n' = 0 := by
      refine List.count_eq_zero.2 fun hmem => (hothers '\n' ?_).1 rfl
      rw [hcs]
      exact List.mem_append_left ds hmem
    rw [hbreaks.count_eq] at hnone
    rw [hnone] at hlarge
    exact hlarge (by decide)

theorem BreaksAt.column_lt_size (h : BreaksAt s o pre run) (hs : s.utf8ByteSize < UInt32.size)
    (hbrim : ¬ ColumnsBrim s o) : 1 + run.length < UInt32.size := by
  by_contra hlarge
  have hbrims : Brims s o := by
    by_contra hnot
    exact hlarge (h.lt_size hs hnot).2
  have hsum := h.length_add_length_le
  have hfull := hbrims.2.1
  obtain ⟨cs, ds, hcs, rfl, hbreaks⟩ := h
  rcases hbrims.2.2 with hfeeds | hothers
  · -- a line feed would end the line, so there is nothing on it
    have hcount : cs.count '\n' = 0 := by
      rw [hbreaks.count_eq]
      omega
    cases cs with
    | nil => exact absurd hfull (by decide)
    | cons c cs =>
        obtain rfl := hfeeds c (by simp [hcs])
        simp at hcount
  · exact hbrim ⟨hbrims, fun c hc => (hothers c hc).1⟩

end Position

/-! ## Excerpts -/

namespace Lines

open Position

variable {s : String} {o : Nat}

/-- The offset lies on the line with the given number: in front of one of its
characters, inside one, or at its end. -/
def Holds (s : String) (o number : Nat) (line : List Char) : Prop :=
  0 < number ∧ (lines s)[number - 1]? = some line ∧
    bytesOfLines ((lines s).take (number - 1)) ≤ o ∧
    o ≤ bytesOfLines ((lines s).take (number - 1)) + (encode line).length

/-- The line of a position holds its offset, and its column is counted from one. -/
theorem exists_holds (hs : s.utf8ByteSize < UInt32.size) (ho : o ≤ s.utf8ByteSize)
    (hbrim : ¬ LinesBrim s o) :
    (∃ line, Holds s o (resolve (.ofString s) o).line.toNat line) ∧
      (¬ ColumnsBrim s o → 0 < (resolve (.ofString s) o).column.toNat) := by
  obtain ⟨o', pre, run, h, hle, hle', hsame, hresolve⟩ := exists_breaksAt_of_le ho
  have heq : Brims s o' → o' = o := by
    intro hbrims
    rcases hsame with hsame | ⟨char, hmem, hwide⟩
    · exact hsame
    · rw [hbrims.utf8Size_eq_one char hmem] at hwide
      exact absurd hwide (Nat.lt_irrefl 1)
  have hline : 1 + pre.length < UInt32.size :=
    h.line_lt_size hs fun hlines => hbrim (heq hlines.1 ▸ hlines)
  have hnumber : (1 + pre.length).toUInt32.toNat = 1 + pre.length :=
    UInt32.toNat_ofNat_of_lt' hline
  obtain ⟨more, later, hlines⟩ := h.lines_eq
  have hoffset := h.offset_eq
  rw [hresolve]
  constructor
  · refine ⟨run ++ more, ?_⟩
    simp only [Holds, hnumber, Nat.add_sub_cancel_left]
    refine ⟨by omega, by rw [hlines]; simp, ?_, ?_⟩
    · rwa [hlines, List.take_left]
    · rw [hlines, List.take_left, encode_append, List.length_append]
      omega
  · intro hcolumns
    have hcolumn := h.column_lt_size hs fun hbrims => hcolumns (heq hbrims.1 ▸ hbrims)
    change 0 < (1 + run.length).toUInt32.toNat
    rw [Nat.toUInt32, UInt32.toNat_ofNat_of_lt' hcolumn]
    omega

/-- The rows that show a line behind its number, and under it a mark behind the given
number of spaces. -/
def rows (number : Nat) (line : List Char) (indent : Nat) : List (List Char) :=
  let digits := (toString number).toList
  let gutter := List.replicate digits.length ' '
  [gutter ++ " |".toList, digits ++ " | ".toList ++ line,
    gutter ++ " | ".toList ++ List.replicate indent ' ' ++ ['^']]

theorem lineFeed_notMem_rows (number indent : Nat) {line : List Char} (hline : '\n' ∉ line) :
    ∀ row ∈ rows number line indent, '\n' ∉ row := by
  have hdigits : '\n' ∉ Nat.toDigits 10 number := fun hmem =>
    absurd (Nat.isDigit_of_mem_toDigits (by decide) (by decide) hmem) (by decide)
  simp [rows, hdigits, hline]

/-- An excerpt is its rows, each with a line feed. -/
theorem lines_excerpt {l : Lines} {p : Position} {line : List Char}
    (h : l.line? p.line = some (String.ofList line)) (hline : '\n' ∉ line) :
    lines (l.excerpt p) = rows p.line.toNat line (p.column.toNat - 1) ++ [[]] := by
  have hwidth : p.line.toNat.repr.length = (Nat.toDigits 10 p.line.toNat).length := by
    rw [← String.length_toList, Nat.toList_repr]
  have hrows : (l.excerpt p).toList =
      (rows p.line.toNat line (p.column.toNat - 1)).flatMap (· ++ ['\n']) := by
    simp [excerpt, h, rows, spaces, hwidth]
  rw [lines, hrows]
  exact splitOn_flatMap_lineFeed (lineFeed_notMem_rows _ _ hline)

/-- The excerpt at a position that has a line. -/
theorem lines_excerpt_ofString {p : Position} {line : List Char}
    (hnumber : 0 < p.line.toNat) (hline : (lines s)[p.line.toNat - 1]? = some line) :
    lines ((ofSource (.ofString s)).excerpt p) =
      rows p.line.toNat (withoutReturns line) (p.column.toNat - 1) ++ [[]] := by
  have hzero : p.line ≠ 0 := by
    intro hzero
    rw [hzero] at hnumber
    exact absurd hnumber (by decide)
  refine lines_excerpt ?_ fun hmem => ?_
  · rw [line?_ofString, if_neg hzero, hline]
    rfl
  · exact lineFeed_notMem_of_mem_lines (List.mem_of_getElem? hline)
      ((List.rdropWhile_prefix _ line).subset hmem)

/-- What the index of a text and its excerpts show. -/
structure Presents (s : String) : Prop where
  line?_eq_none_iff : ∀ n : UInt32, (ofSource (.ofString s)).line? n = none ↔
    n = 0 ∨ (ofSource (.ofString s)).count < n.toNat
  exists_line : ∀ n : UInt32, n ≠ 0 → n.toNat ≤ (ofSource (.ofString s)).count →
    ∃ line, (s.toList.splitOn '\n')[n.toNat - 1]? = some line ∧
      (ofSource (.ofString s)).line? n = some (String.ofList (line.rdropWhile (· == '\r')))
  joined : '\r' ∉ s.toList → ∃ texts : List String,
    texts.length = (ofSource (.ofString s)).count ∧
      (∀ n : UInt32, n ≠ 0 → n.toNat ≤ (ofSource (.ofString s)).count →
        (ofSource (.ofString s)).line? n = texts[n.toNat - 1]?) ∧
      "\n".intercalate texts = s
  shown : s.utf8ByteSize < UInt32.size → ∀ o, ¬ LinesBrim s (min o s.utf8ByteSize) →
    (ofSource (.ofString s)).excerpt (resolve (.ofString s) o) ≠ ""
  marked : s.utf8ByteSize < UInt32.size → '\r' ∉ s.toList → ∀ o,
    ¬ LinesBrim s (min o s.utf8ByteSize) →
      ∃ line indent, Holds s (min o s.utf8ByteSize) (resolve (.ofString s) o).line.toNat line ∧
        lines ((ofSource (.ofString s)).excerpt (resolve (.ofString s) o)) =
          rows (resolve (.ofString s) o).line.toNat line indent ++ [[]] ∧
        (¬ ColumnsBrim s (min o s.utf8ByteSize) →
          indent + 1 = (resolve (.ofString s) o).column.toNat)

theorem resolve_min (s : String) (o : Nat) :
    resolve (.ofString s) (min o s.utf8ByteSize) = resolve (.ofString s) o := by
  simp only [resolve, Source.size_ofString, Nat.min_assoc, Nat.min_self]

/-- Lines and excerpts of a text are those of its lines. -/
theorem presents_text (s : String) : Presents s where
  line?_eq_none_iff n := by
    rw [line?_ofString, count_ofString]
    by_cases hzero : n = 0
    · simp [hzero]
    · have hpos : n.toNat ≠ 0 := fun h => hzero (UInt32.toNat_inj.1 h)
      rw [if_neg hzero, Option.map_eq_none_iff, List.getElem?_eq_none_iff]
      simp only [hzero, false_or]
      omega
  exists_line n hzero hle := by
    have hpos : n.toNat ≠ 0 := fun h => hzero (UInt32.toNat_inj.1 h)
    rw [count_ofString] at hle
    have hget := List.getElem?_eq_getElem (show n.toNat - 1 < (lines s).length by omega)
    refine ⟨_, hget, ?_⟩
    rw [line?_ofString, if_neg hzero, hget]
    rfl
  joined hreturn := by
    refine ⟨(lines s).map String.ofList, ?_, fun n hzero hle => ?_, ?_⟩
    · rw [List.length_map, count_ofString]
    · rw [line?_ofString, if_neg hzero, List.getElem?_map]
      cases hline : (lines s)[n.toNat - 1]? with
      | none => rfl
      | some line =>
          rw [Option.map_some, withoutReturns_of_notMem fun h => hreturn (mem_of_mem_line hline h)]
          rfl
    · rw [← String.toList_inj, String.toList_intercalate, List.map_map]
      have hid : String.toList ∘ String.ofList = id := funext fun _ => String.toList_ofList
      rw [hid, List.map_id]
      exact List.intercalate_splitOn '\n'
  shown hs o hbrim := by
    obtain ⟨⟨line, hnumber, hline, -⟩, -⟩ := exists_holds hs (Nat.min_le_right _ _) hbrim
    rw [resolve_min] at hnumber hline
    have hrows := lines_excerpt_ofString hnumber hline
    intro hempty
    rw [hempty] at hrows
    exact absurd (congrArg List.length hrows) (by simp [rows, lines])
  marked hs hreturn o hbrim := by
    obtain ⟨⟨line, hholds⟩, hcolumn⟩ := exists_holds hs (Nat.min_le_right _ _) hbrim
    rw [resolve_min] at hholds hcolumn
    have hrows := lines_excerpt_ofString hholds.1 hholds.2.1
    rw [withoutReturns_of_notMem fun h => hreturn (mem_of_mem_line hholds.2.1 h)] at hrows
    refine ⟨line, _, hholds, hrows, fun hcolumns => ?_⟩
    have := hcolumn hcolumns
    omega

/-- The mark stands under the third character of the second line. -/
example : (ofSource (.ofString "a\né b")).excerpt (resolve (.ofString "a\né b") 5) =
    "  |\n2 | é b\n  |   ^\n" := by decide +kernel

/-! ## The end of the words -/

/-- A text of one letter over and over. -/
def letters (n : Nat) : String := String.ofList (List.replicate n 'a')

theorem breaksAt_letters (n : Nat) : BreaksAt (letters n) n [] (List.replicate n 'a') :=
  ⟨List.replicate n 'a', [], by rw [letters, String.toList_ofList, List.append_nil],
    length_encode_replicate rfl n, Breaks.nil.append (by simp)⟩

theorem utf8ByteSize_letters (n : Nat) : (letters n).utf8ByteSize = n := by
  rw [← length_bytes, bytes, letters, String.toList_ofList, length_encode_replicate rfl]

/-- Nothing is shown at the end of `2 ^ 32 - 1` line feeds, and no mark can stand in
the column of the end of as many letters. -/
theorem not_shown_lineFeeds :
    (lineFeeds 4294967295).utf8ByteSize < UInt32.size ∧
      (ofSource (.ofString (lineFeeds 4294967295))).excerpt
        (resolve (.ofString (lineFeeds 4294967295)) 4294967295) = "" ∧
      (letters 4294967295).utf8ByteSize < UInt32.size ∧
      (resolve (.ofString (letters 4294967295)) 4294967295).column.toNat = 0 := by
  have hfeeds := utf8ByteSize_lineFeeds 4294967295
  have hletters := utf8ByteSize_letters 4294967295
  have hline := (breaksAt_lineFeeds 4294967295).resolve_eq
  have hcolumn := (breaksAt_letters 4294967295).resolve_eq
  -- the texts are too long to be looked at
  generalize lineFeeds 4294967295 = s at hfeeds hline ⊢
  generalize letters 4294967295 = t at hletters hcolumn ⊢
  rw [List.length_replicate] at hline hcolumn
  have hzero : (resolve (.ofString s) 4294967295).line = 0 := by
    rw [hline]
    decide
  refine ⟨by rw [hfeeds]; decide, ?_, by rw [hletters]; decide, ?_⟩
  · rw [excerpt, hzero, line?_ofString, if_pos rfl]
  · rw [hcolumn]
    decide

end Lines

end UniformBlock
