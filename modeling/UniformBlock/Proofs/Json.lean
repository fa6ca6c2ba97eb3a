import UniformBlock.Proofs.Numeral

/-!
# JSON texts are read as they were written

The text of a `Json` without blanks is read back as the same `Json`
(`read?_compact`), provided that its numerals are well-formed and that its strings
and names are lexemes, that is, escaped forms of texts.

A lexeme is followed character by character: `Escaped c l` says what the escaped
form of a character can be, and both readers of lexemes take one such form at a
time. A value is followed along its structure. `Reads j` says that the reader takes
the text of `j` off the front of a text; lists of items and of members read if each
of them does. The fuel of the reader is measured by the length of the text.
-/

namespace UniformBlock

namespace Json

/-! ## Lexemes -/

/-- The forms in which a character stands in a lexeme. -/
inductive Escaped (c : Char) : List Char → Prop
  | plain (hquote : c ≠ '"') (hslash : c ≠ '\\') (hcontrol : ¬ c.toNat < 0x20) : Escaped c [c]
  | simple {d : Char} (hd : d ≠ 'u') (hc : simpleEscape? d = some c) : Escaped c ['\\', d]
  | unit {d e : Char} (hcontrol : c.toNat < 0x20) (hc : unit? '0' '0' d e = some c.toNat) :
      Escaped c ['\\', 'u', '0', '0', d, e]

theorem unit?_hexDigit {n : Nat} (hn : n < 0x20) :
    unit? '0' '0' (hexDigit (n / 16)) (hexDigit (n % 16)) = some n := by
  revert n
  decide

theorem escaped_escapeChar (c : Char) : Escaped c (escapeChar c) := by
  unfold escapeChar
  -- the characters with an escape of their own
  iterate 7
    split
    · subst_vars
      exact .simple (by decide) (by decide)
  split
  · exact .unit ‹_› (unit?_hexDigit ‹_›)
  · exact .plain ‹_› ‹_› ‹_›

variable {c : Char} {l cs rest : List Char}

theorem takeEscape?_unit {d e : Char} (hcontrol : c.toNat < 0x20)
    (hc : unit? '0' '0' d e = some c.toNat) :
    takeEscape? ('u' :: '0' :: '0' :: d :: e :: cs) = some (c, cs) := by
  have hhigh : isHighHalf c.toNat = false := by
    rw [isHighHalf, Bool.and_eq_false_iff]
    exact .inl (decide_eq_false (by omega))
  have hlow : isLowHalf c.toNat = false := by
    rw [isLowHalf, Bool.and_eq_false_iff]
    exact .inl (decide_eq_false (by omega))
  simp [takeEscape?, takeUnit?, hc, hhigh, hlow]

theorem unescape?_backslash (h : takeEscape? cs = some (c, rest)) :
    unescape? ('\\' :: cs) = (unescape? rest).map (c :: ·) := by
  rw [unescape?, if_pos rfl]
  split
  · rename_i hnone
    rw [h] at hnone
    cases hnone
  · rename_i hsome
    rw [h] at hsome
    cases hsome
    rfl

/-- One escaped character is read at a time. -/
theorem Escaped.unescape?_append (hl : Escaped c l) :
    unescape? (l ++ cs) = (unescape? cs).map (c :: ·) := by
  cases hl with
  | plain hquote hslash hcontrol => rw [List.singleton_append, unescape?, if_neg hslash]
  | @simple d hd hc =>
      have hescape : takeEscape? (d :: cs) = some (c, cs) := by simp [takeEscape?, hd, hc]
      exact unescape?_backslash hescape
  | unit hcontrol hc => exact unescape?_backslash (takeEscape?_unit hcontrol hc)

/-- One escaped character is taken at a time. -/
theorem Escaped.takeLexeme?_append (hl : Escaped c l) :
    takeLexeme? (l ++ cs) = (takeLexeme? cs).map fun r => (l ++ r.1, r.2) := by
  cases hl with
  | plain hquote hslash hcontrol =>
      rw [List.singleton_append, takeLexeme?, if_neg hquote, if_neg hcontrol, if_neg hslash]
      rfl
  | @simple d hd hc =>
      have hlength : escapeLength? (d :: cs) = some 1 := by simp [escapeLength?, hd, hc]
      rw [List.cons_append, List.singleton_append, takeLexeme?, if_neg (by decide),
        if_neg (by decide), if_pos rfl, hlength]
      rfl
  | @unit d e hcontrol hc =>
      have hlength : escapeLength? ('u' :: '0' :: '0' :: d :: e :: cs) = some 5 := by
        simp [escapeLength?, takeUnit?, hc]
      simp only [List.cons_append, List.nil_append]
      rw [takeLexeme?, if_neg (by decide), if_neg (by decide), if_pos rfl, hlength]
      rfl

theorem unescape?_escape (cs : List Char) : unescape? (escape cs) = some cs := by
  induction cs with
  | nil => rw [escape, List.flatMap_nil, unescape?]
  | cons c cs ih =>
      rw [escape, List.flatMap_cons, (escaped_escapeChar c).unescape?_append, ← escape, ih]
      rfl

/-- The escaped form of a text. -/
def IsLexeme (l : List Char) : Prop := ∃ cs, l = escape cs

theorem takeLexeme?_of_isLexeme (hl : IsLexeme l) (rest : List Char) :
    takeLexeme? (l ++ '"' :: rest) = some (l, rest) := by
  obtain ⟨cs, rfl⟩ := hl
  induction cs with
  | nil =>
      rw [escape, List.flatMap_nil, List.nil_append, takeLexeme?]
      rfl
  | cons c cs ih =>
      rw [escape, List.flatMap_cons, List.append_assoc, (escaped_escapeChar c).takeLexeme?_append,
        ← escape, ih]
      rfl

/-! ## Values -/

/-- The numerals of the text are well-formed, and its strings and names are
lexemes. -/
inductive WellFormed : Json → Prop
  | null : WellFormed .null
  | bool (value : Bool) : WellFormed (.bool value)
  | number {value : Numeral} (hvalue : value.WellFormed) : WellFormed (.number value)
  | string {lexeme : List Char} (hlexeme : IsLexeme lexeme) : WellFormed (.string lexeme)
  | array {items : List Json} (hitems : ∀ j ∈ items, WellFormed j) : WellFormed (.array items)
  | object {members : List (List Char × Json)} (hnames : ∀ m ∈ members, IsLexeme m.1)
      (hvalues : ∀ m ∈ members, WellFormed m.2) : WellFormed (.object members)

/-- The reader takes the text of the value off the front. -/
def Reads (j : Json) : Prop :=
  ∀ (fuel : Nat) (rest : List Char), 2 * j.render.length ≤ fuel → EndsNumeral rest →
    takeValue? fuel (j.render ++ rest) = some (j, rest)

theorem skipBlanks_cons (hc : isBlank c = false) : skipBlanks (c :: cs) = c :: cs := by
  simp [skipBlanks, hc]

theorem endsNumeral_cons (hc : c ∈ [',', ']', '\x7d']) : EndsNumeral (c :: rest) := by
  rintro _ ⟨rfl⟩
  simp only [List.mem_cons, List.not_mem_nil, or_false] at hc
  rcases hc with rfl | rfl | rfl <;> decide

theorem Numeral.WellFormed.head_render {n : Numeral} (hn : n.WellFormed) :
    ∃ c cs, n.render = c :: cs ∧ (c = '-' ∨ isDecimalDigit c = true) := by
  obtain ⟨d, ds, hd⟩ := List.exists_cons_of_ne_nil hn.whole.ne_nil
  have hrender := n.render_append []
  rw [List.append_nil, hd] at hrender
  rw [hrender]
  cases n.negative with
  | true => exact ⟨_, _, rfl, .inl rfl⟩
  | false => exact ⟨_, _, rfl, .inr (hn.whole.digit d (by simp [hd]))⟩

/-- What begins a number begins nothing else. -/
theorem ne_of_opensNumeral (hc : c = '-' ∨ isDecimalDigit c = true) :
    c ∉ ['n', 't', 'f', '"', '[', '\x7b', ']'] ∧ isBlank c = false := by
  have hother : ∀ d ∈ ['n', 't', 'f', '"', '[', '\x7b', ']', ' ', '\t', '\n', '\r'],
      ¬ (d = '-' ∨ isDecimalDigit d = true) := by
    simp only [List.forall_mem_cons, List.not_mem_nil, false_implies, implies_true, and_true]
    decide
  refine ⟨fun hmem => hother c (List.mem_append_left _ hmem) hc, ?_⟩
  rw [Bool.eq_false_iff]
  intro hblank
  refine hother c ?_ hc
  simp only [isBlank, Bool.or_eq_true, beq_iff_eq] at hblank
  rcases hblank with ((rfl | rfl) | rfl) | rfl <;> decide

/-- A value begins with a character that is neither a blank nor a closing bracket. -/
theorem WellFormed.head_render {j : Json} (hj : j.WellFormed) :
    ∃ c cs, j.render = c :: cs ∧ isBlank c = false ∧ c ≠ ']' := by
  cases hj with
  | null => exact ⟨_, _, rfl, by decide, by decide⟩
  | bool value => cases value <;> exact ⟨_, _, rfl, by decide, by decide⟩
  | number hvalue =>
      obtain ⟨c, cs, hrender, hc⟩ := hvalue.head_render
      obtain ⟨hne, hblank⟩ := ne_of_opensNumeral hc
      exact ⟨c, cs, by rw [render, hrender], hblank, by rintro rfl; simp at hne⟩
  | string hlexeme => exact ⟨_, _, by rw [render, quote], by decide, by decide⟩
  | array hitems => exact ⟨_, _, by rw [render], by decide, by decide⟩
  | object hnames hvalues => exact ⟨_, _, by rw [render], by decide, by decide⟩

theorem reads_number {n : Numeral} (hn : n.WellFormed) : Reads (.number n) := by
  intro fuel rest hfuel hrest
  obtain ⟨c, cs, hrender, hc⟩ := hn.head_render
  obtain ⟨hne, hblank⟩ := ne_of_opensNumeral hc
  have htake := takeNumeral?_render hn hrest
  cases fuel with
  | zero => simp [render, hrender] at hfuel
  | succ fuel =>
      simp only [List.mem_cons, List.not_mem_nil, or_false, not_or] at hne
      rw [hrender, List.cons_append] at htake
      rw [render, hrender, List.cons_append, takeValue?, skipBlanks_cons hblank]
      simp only [hne, if_false, htake]
      rfl

theorem reads_string (hl : IsLexeme l) : Reads (.string l) := by
  intro fuel rest hfuel hrest
  cases fuel with
  | zero => simp [render, quote] at hfuel
  | succ fuel =>
      rw [render, quote, List.cons_append, List.append_assoc, takeValue?,
        skipBlanks_cons (by decide)]
      simp only [Char.reduceEq, if_false, if_true, List.singleton_append,
        takeLexeme?_of_isLexeme hl]
      rfl

theorem renderMoreItems_eq {items : List Json} (hne : items ≠ []) :
    renderMoreItems items = ',' :: renderItems items := by
  cases items with
  | nil => exact absurd rfl hne
  | cons item items => rw [renderMoreItems, renderItems]

theorem takeItems?_renderItems {items : List Json} (hne : items ≠ [])
    (hitems : ∀ j ∈ items, Reads j) {fuel : Nat}
    (hfuel : 2 * (renderItems items).length + 1 ≤ fuel) (rest : List Char) :
    takeItems? fuel (renderItems items ++ ']' :: rest) = some (items, rest) := by
  induction items generalizing fuel with
  | nil => exact absurd rfl hne
  | cons item items ih =>
      obtain ⟨fuel, rfl⟩ : ∃ f, fuel = f + 1 := ⟨fuel - 1, by omega⟩
      have hitem := hitems item List.mem_cons_self
      rw [renderItems, List.length_append] at hfuel
      rw [renderItems, List.append_assoc, takeItems?]
      cases items with
      | nil =>
          rw [renderMoreItems, List.nil_append,
            hitem fuel _ (by omega) (endsNumeral_cons (by decide))]
          simp only [skipBlanks_cons (c := ']') (by decide)]
      | cons next items =>
          have hmore := renderMoreItems_eq (List.cons_ne_nil next items)
          rw [hmore, List.length_cons] at hfuel
          rw [hmore, List.cons_append, hitem fuel _ (by omega) (endsNumeral_cons (by decide))]
          simp only [skipBlanks_cons (c := ',') (by decide)]
          rw [ih (List.cons_ne_nil next items) (fun j hj => hitems j (List.mem_cons_of_mem _ hj))
            (by omega)]
          rfl

theorem reads_array {items : List Json} (hwell : ∀ j ∈ items, j.WellFormed)
    (hitems : ∀ j ∈ items, Reads j) : Reads (.array items) := by
  intro fuel rest hfuel hrest
  rw [render, List.length_cons, List.length_append] at hfuel
  obtain ⟨fuel, rfl⟩ : ∃ f, fuel = f + 1 := ⟨fuel - 1, by omega⟩
  rw [render, List.cons_append, List.append_assoc, List.singleton_append, takeValue?,
    skipBlanks_cons (by decide)]
  simp only [Char.reduceEq, if_false, if_true]
  cases items with
  | nil => simp only [renderItems, List.nil_append, skipBlanks_cons (c := ']') (by decide)]
  | cons item items =>
      obtain ⟨c, cs, hrender, hblank, hc⟩ := (hwell item List.mem_cons_self).head_render
      have htake : takeItems? fuel (renderItems (item :: items) ++ ']' :: rest) = _ :=
        takeItems?_renderItems (List.cons_ne_nil item items) hitems (by omega) rest
      rw [renderItems, hrender, List.cons_append, List.cons_append] at htake ⊢
      rw [skipBlanks_cons hblank, htake]
      split
      · rename_i hclose
        exact absurd (List.head_eq_of_cons_eq hclose) hc
      · rfl

theorem renderMoreMembers_eq {members : List (List Char × Json)} (hne : members ≠ []) :
    renderMoreMembers members = ',' :: renderMembers members := by
  cases members with
  | nil => exact absurd rfl hne
  | cons m members => rw [renderMoreMembers, renderMembers]

theorem expect?_cons (hc : isBlank c = false) : expect? c (c :: cs) = some cs := by
  simp [expect?, skipBlanks_cons hc]

theorem takeMembers?_renderMembers {members : List (List Char × Json)} (hne : members ≠ [])
    (hnames : ∀ m ∈ members, IsLexeme m.1) (hvalues : ∀ m ∈ members, Reads m.2) {fuel : Nat}
    (hfuel : 2 * (renderMembers members).length + 1 ≤ fuel) (rest : List Char) :
    takeMembers? fuel (renderMembers members ++ '\x7d' :: rest) = some (members, rest) := by
  induction members generalizing fuel with
  | nil => exact absurd rfl hne
  | cons m members ih =>
      obtain ⟨name, value⟩ := m
      obtain ⟨fuel, rfl⟩ : ∃ f, fuel = f + 1 := ⟨fuel - 1, by omega⟩
      have hname := takeLexeme?_of_isLexeme (hnames (name, value) List.mem_cons_self)
      have hvalue : Reads value := hvalues (name, value) List.mem_cons_self
      simp only [renderMembers, quote, List.cons_append, List.append_assoc, List.length_cons,
        List.length_append, List.nil_append] at hfuel ⊢
      rw [takeMembers?, expect?_cons (by decide), Option.bind_some, hname]
      simp only [expect?_cons (c := ':') (by decide), Option.bind_some]
      cases members with
      | nil =>
          rw [renderMoreMembers, List.nil_append,
            hvalue fuel _ (by omega) (endsNumeral_cons (by decide))]
          simp only [skipBlanks_cons (c := '\x7d') (by decide)]
      | cons next members =>
          have hmore := renderMoreMembers_eq (List.cons_ne_nil next members)
          rw [hmore, List.length_cons] at hfuel
          rw [hmore, List.cons_append, hvalue fuel _ (by omega) (endsNumeral_cons (by decide))]
          simp only [skipBlanks_cons (c := ',') (by decide)]
          rw [ih (List.cons_ne_nil next members)
            (fun m hm => hnames m (List.mem_cons_of_mem _ hm))
            (fun m hm => hvalues m (List.mem_cons_of_mem _ hm)) (by omega)]
          rfl

theorem reads_object {members : List (List Char × Json)} (hnames : ∀ m ∈ members, IsLexeme m.1)
    (hvalues : ∀ m ∈ members, Reads m.2) : Reads (.object members) := by
  intro fuel rest hfuel hrest
  rw [render, List.length_cons, List.length_append] at hfuel
  obtain ⟨fuel, rfl⟩ : ∃ f, fuel = f + 1 := ⟨fuel - 1, by omega⟩
  rw [render, List.cons_append, List.append_assoc, List.singleton_append, takeValue?,
    skipBlanks_cons (by decide)]
  simp only [Char.reduceEq, if_false, if_true]
  cases members with
  | nil => simp only [renderMembers, List.nil_append, skipBlanks_cons (c := '\x7d') (by decide)]
  | cons m members =>
      have htake : takeMembers? fuel (renderMembers (m :: members) ++ '\x7d' :: rest) = _ :=
        takeMembers?_renderMembers (List.cons_ne_nil m members) hnames hvalues (by omega) rest
      rw [renderMembers, quote] at htake ⊢
      simp only [List.cons_append] at htake ⊢
      rw [skipBlanks_cons (by decide), htake]
      rfl

/-- A well-formed value reads, whatever follows it. -/
theorem WellFormed.reads {j : Json} (hj : j.WellFormed) : Reads j := by
  induction hj with
  | null =>
      intro fuel rest hfuel hrest
      cases fuel with
      | zero => simp [render] at hfuel
      | succ fuel => rfl
  | bool value =>
      intro fuel rest hfuel hrest
      cases fuel with
      | zero => cases value <;> simp [render] at hfuel
      | succ fuel => cases value <;> rfl
  | number hvalue => exact reads_number hvalue
  | string hlexeme => exact reads_string hlexeme
  | array hitems ih => exact reads_array hitems ih
  | object hnames hvalues ih => exact reads_object hnames ih

/-- A text without blanks is read as it was written. -/
theorem read?_compact {j : Json} (hj : j.WellFormed) : read? j.compact = some j := by
  have htake := hj.reads (2 * j.render.length + 1) [] (by omega) (by simp [EndsNumeral])
  rw [List.append_nil] at htake
  rw [read?, compact, String.toList_ofList, htake]
  rfl

end Json

end UniformBlock
