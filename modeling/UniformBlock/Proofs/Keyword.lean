import UniformBlock.Proofs.Declaration

/-!
# Keywords are whole words

A keyword of letters and digits stands at a head exactly when it is the longest
run of letters and digits there (`Head.tryKeyword_eq`). Different keywords
therefore never stand at the same place. So the keywords of the types may be tried
in any order, and trying them comes to the same as looking up the whole word
(`Declaration.readsWholeWord`).

The tries are stated the way they are made, one after the other: each may move the
head, and the next one begins where it left the head.
-/

namespace UniformBlock

open Ascii Grammar

namespace Head

/-- Try a keyword: whether it stands at the head, and the head afterwards. -/
def tryKeyword (h : Head) (keyword : String) : Bool × Head :=
  match h.keyword? keyword with
  | some k => (true, k)
  | none => (false, h)

variable {h : Head}

theorem keyword_eq_takeWord_iff {keyword : String} :
    keyword = h.takeWord.1 ↔ h.word = Utf8.bytes keyword := by
  rw [← bytes_takeWord]
  exact ⟨fun heq => by rw [heq], fun heq => (Utf8.bytes_injective heq).symm⟩

/-- A keyword is found exactly where it is the whole word, and taken along; elsewhere
the head stays. -/
theorem tryKeyword_eq {keyword : String} (hrun : Run isWord (Utf8.bytes keyword)) :
    h.tryKeyword keyword =
      if h.word = Utf8.bytes keyword then (true, h.takeWord.2) else (false, h) := by
  split
  · rename_i hword
    have hlater : h.takeWord.2 = h.skip (Utf8.bytes keyword).length := by rw [takeWord, hword]
    rw [tryKeyword, (keyword?_eq_some_iff_word hrun).2 ⟨hword, hlater⟩]
  · rename_i hword
    have hnone : h.keyword? keyword = none := by
      cases hk : h.keyword? keyword with
      | none => rfl
      | some k => exact absurd ((keyword?_eq_some_iff_word hrun).1 hk).1 hword
    rw [tryKeyword, hnone]

end Head

namespace UniformType

/-- At most one type has a given keyword, wherever it stands in a list. -/
theorem find?_keyword_eq_some_iff {ts : List UniformType} {t : UniformType} {word : String} :
    ts.find? (·.keyword == word) = some t ↔ t ∈ ts ∧ t.keyword = word := by
  constructor
  · intro hfind
    exact ⟨List.mem_of_find?_eq_some hfind, by simpa using List.find?_some hfind⟩
  · rintro ⟨hmem, hword⟩
    cases hfind : ts.find? (·.keyword == word) with
    | none => exact absurd (List.find?_eq_none.1 hfind t hmem) (by simp [hword])
    | some u =>
        have hu : u.keyword = word := by simpa using List.find?_some hfind
        rw [keyword_injective (hu.trans hword.symm)]

theorem find?_keyword_of_perm {ts us : List UniformType} (hperm : ts.Perm us) (word : String) :
    ts.find? (·.keyword == word) = us.find? (·.keyword == word) := by
  refine Option.ext fun t => ?_
  rw [find?_keyword_eq_some_iff, find?_keyword_eq_some_iff, hperm.mem_iff]

end UniformType

namespace Declaration

/-- Try the keywords of types in the given order, each where the one before it has
left the head, until one is found. -/
def tryTypes : List UniformType → Head → Option UniformType × Head
  | [], h => (none, h)
  | t :: ts, h =>
    match h.tryKeyword t.keyword with
    | (true, k) => (some t, k)
    | (false, k) => tryTypes ts k

/-- Read a type by trying the keywords of types in the given order. -/
def readTypeAmong (ts : List UniformType) : Reading UniformType := fun h =>
  match tryTypes ts h with
  | (some t, k) => (.ok t, k)
  | (none, k) => (.error ⟨h.pos, .typeUnknown⟩, k)

variable {h : Head}

/-- A try that fails leaves the head where it was, so all of them are made from the
same place. -/
theorem tryTypes_eq_firstKeyword? (ts : List UniformType) (h : Head) :
    tryTypes ts h =
      match Value.firstKeyword? h (ts.map fun t => (t.keyword, t)) with
      | some (t, k) => (some t, k)
      | none => (none, h) := by
  induction ts with
  | nil => rfl
  | cons t ts ih =>
      rw [tryTypes, List.map_cons, Value.firstKeyword?, Head.tryKeyword]
      cases h.keyword? t.keyword with
      | none => exact ih
      | some k => rfl

/-- Types are read by trying the keywords of all of them. -/
theorem readType_eq_readTypeAmong : readType = readTypeAmong UniformType.all := by
  funext h
  rw [readType, readTypeAmong, tryTypes_eq_firstKeyword?]
  cases Value.firstKeyword? h (UniformType.all.map fun t => (t.keyword, t)) with
  | none => rfl
  | some found => rfl

/-- Trying keywords comes to the same as looking up the whole word. -/
theorem tryTypes_eq_find? (ts : List UniformType) (h : Head) :
    tryTypes ts h =
      match ts.find? (·.keyword == h.takeWord.1) with
      | some t => (some t, h.takeWord.2)
      | none => (none, h) := by
  induction ts with
  | nil => rfl
  | cons t ts ih =>
      rw [tryTypes, Head.tryKeyword_eq t.run_keyword, List.find?_cons]
      by_cases hword : h.word = Utf8.bytes t.keyword
      · rw [if_pos hword, beq_iff_eq.2 (Head.keyword_eq_takeWord_iff.2 hword)]
      · rw [if_neg hword, beq_eq_false_iff_ne.2 fun heq =>
          hword (Head.keyword_eq_takeWord_iff.1 heq)]
        exact ih

theorem readTypeAmong_eq (ts : List UniformType) (h : Head) :
    readTypeAmong ts h =
      match ts.find? (·.keyword == h.takeWord.1) with
      | some t => (.ok t, h.takeWord.2)
      | none => (.error ⟨h.pos, .typeUnknown⟩, h) := by
  rw [readTypeAmong, tryTypes_eq_find?]
  cases ts.find? (·.keyword == h.takeWord.1) with
  | none => rfl
  | some t => rfl

/-- A type is read where the whole word is its keyword. -/
theorem readType_eq (h : Head) :
    readType h =
      match UniformType.ofKeyword? h.takeWord.1 with
      | some t => (.ok t, h.takeWord.2)
      | none => (.error ⟨h.pos, .typeUnknown⟩, h) := by
  rw [readType_eq_readTypeAmong, readTypeAmong_eq]
  rfl

/-- What keywords have to do with the whole word in front of a head. -/
structure ReadsWholeWord (h : Head) : Prop where
  tried : ∀ keyword, Run isWord (Utf8.bytes keyword) →
    h.tryKeyword keyword =
      if h.word = Utf8.bytes keyword then (true, h.takeWord.2) else (false, h)
  unique : ∀ t u : UniformType, (h.tryKeyword t.keyword).1 = true →
    (h.tryKeyword u.keyword).1 = true → t = u
  anyOrder : ∀ ts, ts.Perm UniformType.all → readTypeAmong ts h = readType h
  accepted : ∀ t k, readType h = (.ok t, k) ↔
    UniformType.ofKeyword? h.takeWord.1 = some t ∧ k = h.takeWord.2
  refused : ∀ e k, readType h = (.error e, k) ↔
    UniformType.ofKeyword? h.takeWord.1 = none ∧ e = ⟨h.pos, .typeUnknown⟩ ∧ k = h

/-- Keywords are recognised as whole words, at every head and in any order. -/
theorem readsWholeWord (h : Head) : ReadsWholeWord h := by
  have hfound {t : UniformType} (ht : (h.tryKeyword t.keyword).1 = true) :
      h.word = Utf8.bytes t.keyword := by
    by_contra hword
    rw [Head.tryKeyword_eq t.run_keyword, if_neg hword] at ht
    cases ht
  refine ⟨fun keyword => Head.tryKeyword_eq, fun t u ht hu => ?_, fun ts hts => ?_,
    fun t k => ?_, fun e k => ?_⟩
  · exact UniformType.keyword_injective
      (Utf8.bytes_injective ((hfound ht).symm.trans (hfound hu)))
  · rw [readType_eq_readTypeAmong, readTypeAmong_eq, readTypeAmong_eq,
      UniformType.find?_keyword_of_perm hts]
  · rw [readType_eq]
    cases UniformType.ofKeyword? h.takeWord.1 with
    | none => simp
    | some u => simp [eq_comm]
  · rw [readType_eq]
    cases UniformType.ofKeyword? h.takeWord.1 with
    | none => simp [eq_comm]
    | some u => simp

/-- A keyword in front of further letters is not one, but any other character ends
it. -/
example :
    (readType (.start (.ofString "intensity x;"))).1 = .error ⟨0, .typeUnknown⟩ ∧
      (readType (.start (.ofString "inté"))).1 = .ok .int ∧
      (readTypeAmong UniformType.all.reverse (.start (.ofString "vec3"))).1 = .ok .vec3 := by
  decide +kernel

end Declaration

end UniformBlock
