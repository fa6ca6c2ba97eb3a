import UniformBlock.Text.Ascii
import UniformBlock.Text.Utf8

/-!
# The reading head

A `Head` is a position in a source together with what is left to read there.
The two are stored side by side, so that looking ahead costs nothing, and the
structure records that they agree: `rest` is the source without its first `pos`
bytes. Every operation below moves the head by `skip` alone, so it inherits this
agreement.

An operation that may find nothing to skip is partial (`skipComment?`,
`eat?`, `keyword?`); where it does not apply the head stays where it was.

* `toWord` passes over comments, blanks and punctuation and ends in front of
  a word or at the end of the source.
* `takeWord` takes the longest run of letters and digits.
-/

namespace UniformBlock

/-- The bytes of a source and their number. -/
structure Source where
  bytes : List UInt8
  size : Nat
  size_eq : size = bytes.length

namespace Source

def ofBytes (bs : List UInt8) : Source := ⟨bs, bs.length, rfl⟩

def ofString (s : String) : Source := ofBytes (Utf8.bytes s)

/-- A character begins at the offset, or the source ends there. -/
def isBoundary (source : Source) (offset : Nat) : Bool :=
  offset ≤ source.size && !source.bytes[offset]?.any Utf8.isContinuation

/-- The text between two offsets. It is refused unless they come in this order, inside
the source and between characters. -/
def slice? (source : Source) (first last : Nat) : Option String :=
  if first ≤ last && source.isBoundary first && source.isBoundary last then
    Utf8.text? ((source.bytes.take last).drop first)
  else
    none

end Source

/-- A position in a source. -/
structure Head where
  source : Source
  pos : Nat
  rest : List UInt8
  rest_eq : rest = source.bytes.drop pos
  pos_le : pos ≤ source.size

namespace Head

open Ascii

def start (source : Source) : Head where
  source := source
  pos := 0
  rest := source.bytes
  rest_eq := rfl
  pos_le := Nat.zero_le _

/-- Move `n` bytes on, at most to the end of the source. -/
def skip (h : Head) (n : Nat) : Head where
  source := h.source
  pos := min (h.pos + n) h.source.size
  rest := h.rest.drop n
  rest_eq := by
    rw [h.rest_eq, List.drop_drop]
    by_cases hle : h.pos + n ≤ h.source.size
    · rw [Nat.min_eq_left hle]
    · have hsize := h.source.size_eq
      rw [Nat.min_eq_right (by omega), List.drop_eq_nil_of_le (by omega),
        List.drop_eq_nil_of_le (by omega)]
  pos_le := Nat.min_le_right _ _

theorem length_rest (h : Head) : h.rest.length = h.source.size - h.pos := by
  rw [h.rest_eq, List.length_drop, h.source.size_eq]

@[simp] theorem source_skip (h : Head) (n : Nat) : (h.skip n).source = h.source := rfl

@[simp] theorem rest_skip (h : Head) (n : Nat) : (h.skip n).rest = h.rest.drop n := rfl

theorem length_rest_skip (h : Head) (n : Nat) :
    (h.skip n).rest.length = h.rest.length - n := by
  simp

theorem pos_le_pos_skip (h : Head) (n : Nat) : h.pos ≤ (h.skip n).pos :=
  Nat.le_min.2 ⟨Nat.le_add_right _ _, h.pos_le⟩

def atEnd (h : Head) : Bool := h.rest.isEmpty

def peek? (h : Head) : Option UInt8 := h.rest.head?

def peekAt? (h : Head) (n : Nat) : Option UInt8 := h.rest[n]?

def atWord (h : Head) : Bool := h.peek?.any isWord

/-- Skip the longest run of bytes of a class. -/
def skipWhile (h : Head) (p : UInt8 → Bool) : Head :=
  h.skip (h.rest.takeWhile p).length

def skipBlanks (h : Head) : Head := h.skipWhile isBlank

def eat? (h : Head) (b : UInt8) : Option Head :=
  if h.rest.head? = some b then some (h.skip 1) else none

/-- The number of bytes up to and including the first end mark of a block
comment, or all of them when there is none; `n` is the number already passed. -/
def blockLength (n : Nat) : List UInt8 → Nat
  | [] => n
  | b :: bs =>
    if b == star && bs.head? == some slash then n + 2 else blockLength (n + 1) bs

def startsLine : List UInt8 → Bool
  | a :: b :: _ => a == slash && b == slash
  | _ => false

def startsBlock : List UInt8 → Bool
  | a :: b :: _ => a == slash && b == star
  | _ => false

def startsComment (bs : List UInt8) : Bool := startsLine bs || startsBlock bs

/-- Skip one comment. A line comment takes the newline bytes after it along; a
block comment without an end mark runs to the end of the source. -/
def skipComment? (h : Head) : Option Head :=
  if startsLine h.rest then
    some ((h.skipWhile (!isNewline ·)).skipWhile isNewline)
  else if startsBlock h.rest then
    some (h.skip (2 + blockLength 0 (h.rest.drop 2)))
  else
    none

/-- The number of bytes in front of the next word or comment; `n` is the number
already passed. -/
def punctuationLength (n : Nat) : List UInt8 → Nat
  | [] => n
  | b :: bs =>
    if isWord b || startsComment (b :: bs) then n else punctuationLength (n + 1) bs

/-- Skip everything in front of the next word or comment. -/
def skipPunctuation (h : Head) : Head := h.skip (punctuationLength 0 h.rest)

def word (h : Head) : List UInt8 := h.rest.takeWhile isWord

/-- Take the longest run of letters and digits, which may be empty. -/
def takeWord (h : Head) : String × Head := (Utf8.text h.word, h.skip h.word.length)

/-- Skip a keyword that no further letter or digit follows. -/
def keyword? (h : Head) (keyword : String) : Option Head :=
  let bs := Utf8.bytes keyword
  if bs.isPrefixOf h.rest && !(h.rest.drop bs.length).head?.any isWord then
    some (h.skip bs.length)
  else
    none

/-- Skip one stretch between words: a comment, else a run of blanks, else a run
of punctuation; `none` when the head stands in front of a word or at the end. -/
def skipGap? (h : Head) : Option Head :=
  match h.skipComment? with
  | some later => some later
  | none =>
    if h.rest.head?.any isBlank then some h.skipBlanks
    else if punctuationLength 0 h.rest = 0 then none
    else some h.skipPunctuation

theorem startsLine_iff {bs : List UInt8} :
    startsLine bs = true ↔ ∃ cs, bs = slash :: slash :: cs := by
  constructor
  · intro hs
    match bs, hs with
    | a :: b :: cs, hs =>
      simp only [startsLine, Bool.and_eq_true, beq_iff_eq] at hs
      exact ⟨cs, by rw [hs.1, hs.2]⟩
  · rintro ⟨cs, rfl⟩
    rfl

theorem startsBlock_iff {bs : List UInt8} :
    startsBlock bs = true ↔ ∃ cs, bs = slash :: star :: cs := by
  constructor
  · intro hs
    match bs, hs with
    | a :: b :: cs, hs =>
      simp only [startsBlock, Bool.and_eq_true, beq_iff_eq] at hs
      exact ⟨cs, by rw [hs.1, hs.2]⟩
  · rintro ⟨cs, rfl⟩
    rfl

/-- There is a comment to skip exactly where one begins. -/
theorem skipComment?_eq_none_iff {h : Head} :
    h.skipComment? = none ↔ startsComment h.rest = false := by
  unfold skipComment? startsComment
  by_cases hl : startsLine h.rest = true
  · simp [hl]
  · by_cases hb : startsBlock h.rest = true
    · simp [hl, hb]
    · simp [hl, hb]

theorem length_skipComment?_lt {h later : Head} (hc : h.skipComment? = some later) :
    later.rest.length < h.rest.length := by
  unfold skipComment? at hc
  split at hc
  · rename_i hs
    obtain ⟨cs, hrest⟩ := startsLine_iff.1 hs
    obtain rfl := Option.some.inj hc
    have hnl : isNewline slash = false := rfl
    simp only [skipWhile, rest_skip, List.length_drop, hrest, List.takeWhile_cons, hnl,
      Bool.not_false, if_true, List.length_cons]
    omega
  · split at hc
    · rename_i hs
      obtain ⟨cs, hrest⟩ := startsBlock_iff.1 hs
      obtain rfl := Option.some.inj hc
      simp only [rest_skip, List.length_drop, hrest, List.length_cons]
      omega
    · exact absurd hc (by simp)

theorem le_punctuationLength (n : Nat) (bs : List UInt8) : n ≤ punctuationLength n bs := by
  induction bs generalizing n with
  | nil => exact Nat.le_refl n
  | cons b bs ih =>
    unfold punctuationLength
    split
    · exact Nat.le_refl n
    · exact Nat.le_trans (Nat.le_succ n) (ih (n + 1))

/-- Nothing is punctuation exactly at a word, at a comment or at the end. -/
theorem punctuationLength_cons_eq_zero {b : UInt8} {bs : List UInt8}
    (hp : punctuationLength 0 (b :: bs) = 0) :
    isWord b = true ∨ startsComment (b :: bs) = true := by
  by_cases hstop : (isWord b || startsComment (b :: bs)) = true
  · simpa using hstop
  · have hone : 0 + 1 ≤ punctuationLength (0 + 1) bs := le_punctuationLength (0 + 1) bs
    rw [punctuationLength, if_neg hstop] at hp
    omega

theorem length_skipGap?_lt {h later : Head} (hg : h.skipGap? = some later) :
    later.rest.length < h.rest.length := by
  unfold skipGap? at hg
  split at hg
  · rename_i hc
    obtain rfl := Option.some.inj hg
    exact length_skipComment?_lt hc
  · split at hg
    · rename_i hb
      obtain rfl := Option.some.inj hg
      cases hrest : h.rest with
      | nil => simp [hrest] at hb
      | cons b bs =>
        have hb : isBlank b = true := by simpa [hrest] using hb
        simp only [skipBlanks, skipWhile, rest_skip, List.length_drop, hrest]
        simp only [List.takeWhile_cons, hb, if_true, List.length_cons]
        omega
    · split at hg
      · simp at hg
      · rename_i hp
        obtain rfl := Option.some.inj hg
        cases hrest : h.rest with
        | nil => simp [hrest, punctuationLength] at hp
        | cons b bs =>
          rw [hrest] at hp
          simp only [skipPunctuation, rest_skip, List.length_drop, hrest, List.length_cons]
          omega

/-- Skip comments, blanks and punctuation up to the next word or the end. -/
def toWord (h : Head) : Head :=
  match _hg : h.skipGap? with
  | some later => toWord later
  | none => h
termination_by h.rest.length
decreasing_by exact length_skipGap?_lt _hg

/-- A head that has a gap to skip is not yet where `toWord` ends. -/
theorem skipGap?_toWord (h : Head) : h.toWord.skipGap? = none := by
  fun_induction toWord h with
  | case1 h later _ ih => exact ih
  | case2 h hg => exact hg

theorem length_toWord_le (h : Head) : h.toWord.rest.length ≤ h.rest.length := by
  fun_induction toWord h with
  | case1 h later hg ih => exact Nat.le_trans ih (Nat.le_of_lt (length_skipGap?_lt hg))
  | case2 h hg => exact Nat.le_refl _

/-- Where there is no gap to skip, a word begins or the source ends. -/
theorem atWord_of_skipGap?_eq_none {h : Head} (hg : h.skipGap? = none)
    (hend : h.atEnd = false) : h.atWord = true := by
  cases hrest : h.rest with
  | nil => simp [atEnd, hrest] at hend
  | cons b bs =>
    have hcomment : h.skipComment? = none := by
      unfold skipGap? at hg
      split at hg
      · simp at hg
      · assumption
    have hstart : startsComment (b :: bs) = false := hrest ▸ skipComment?_eq_none_iff.1 hcomment
    have hzero : punctuationLength 0 (b :: bs) = 0 := by
      unfold skipGap? at hg
      rw [hcomment] at hg
      simp only [hrest] at hg
      split at hg
      · simp at hg
      · split at hg
        · assumption
        · simp at hg
    rcases punctuationLength_cons_eq_zero hzero with hw | hc
    · simp [atWord, peek?, hrest, hw]
    · rw [hstart] at hc
      exact absurd hc (by simp)

theorem length_takeWord_lt {h : Head} (hw : h.atWord = true) :
    h.takeWord.2.rest.length < h.rest.length := by
  cases hrest : h.rest with
  | nil => simp [atWord, peek?, hrest] at hw
  | cons b bs =>
    have hb : isWord b = true := by simpa [atWord, peek?, hrest] using hw
    simp only [takeWord, rest_skip, List.length_drop, word, hrest, List.takeWhile_cons, hb,
      if_true, List.length_cons]
    omega

end Head

end UniformBlock
