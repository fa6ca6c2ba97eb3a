import UniformBlock.Proofs.Piece
import UniformBlock.Proofs.Placement

/-!
# Documents and their grammar

Reading a document follows its decomposition. At every place the decomposition
comes to, reading on from there is what reading the whole document does
(`read_eq_readFrom`), and the decomposition can be carried on until the text ends
or a declaration has a fault (`ending_readFrom`). Both go piece by piece: a piece
leaves the reader where it was, a declaration adds one to what was read.

Since reading is a function, the decomposition of an accepted text is unique,
although the grammar does not say so.
-/

namespace UniformBlock

open Ascii Grammar

namespace Grammar

variable {before rest w : List UInt8} {ds : List Declaration} {d : Declaration}

theorem DeclarationText.stops (hd : DeclarationText d w) : Stops isWord (w ++ rest) := by
  obtain @⟨type, name, m, b, c, e, w, hb, hb', -, -, -, -, -⟩ := hd
  cases b with
  | nil => exact absurd rfl hb'
  | cons a b => exact stops_cons.2 (isWord_eq_false_of_isBlank a (run_cons.1 hb).1)

/-- A declaration ends with a byte of the ASCII range. -/
theorem DeclarationText.isText (hd : DeclarationText d w) (h : Utf8.IsText (w ++ rest)) :
    Utf8.IsText rest := by
  obtain ⟨u, rfl⟩ : ∃ u, w = u ++ [semicolon] := by
    obtain @⟨type, name, m, b, c, e, w, -, -, -, -, -, -, -⟩ := hd
    refine ⟨b ++ (Utf8.bytes type.keyword ++ (c ++ (Utf8.bytes name ++ (e ++ w)))), ?_⟩
    simp only [List.append_assoc]
  rw [List.append_assoc, List.singleton_append] at h
  exact (h.split (Utf8.startsChar_cons (by decide))).2.of_cons (by decide)

/-- The decomposition comes to character boundaries only. -/
theorem Decomposes.isText (hd : Decomposes before ds rest) (h : Utf8.IsText (before ++ rest)) :
    Utf8.IsText rest := by
  induction hd with
  | start => exact h
  | piece hbefore hw ih =>
      rw [List.append_assoc] at h
      exact hw.isText (ih h)
  | @declaration before w rest ds d hbefore hw ih =>
      rw [List.append_assoc] at h
      have htext := ih h
      rw [List.append_assoc] at htext
      exact hw.isText (htext.of_append (Utf8.isText_bytes _))

/-- Cutting a text off changes nothing before the cut. -/
theorem Decomposes.of_prefix {rest' : List UInt8} (hd : Decomposes before ds rest)
    (hrest : rest' <+: rest) : Decomposes before ds rest' := by
  induction hd generalizing rest' with
  | start => exact .start
  | @piece before w rest ds hbefore hw ih =>
      exact .piece (ih ((List.prefix_append_right_inj w).2 hrest)) (hw.of_prefix hrest)
  | declaration hbefore hw ih =>
      exact .declaration (ih ((List.prefix_append_right_inj _).2 hrest)) hw

end Grammar

namespace Document

variable {h k l : Head} {declared : Nat} {acc : List Declaration} {d : Declaration} {e : Fault}

/-! ## One turn of the loop -/

theorem readFrom_of_rest_eq_nil (hnil : h.rest = []) :
    readFrom h declared acc = ⟨acc.reverse, none⟩ := by
  have hend : h.toWord.atEnd = true := by
    have hle := Head.length_toWord_le h
    rw [hnil, List.length_nil, Nat.le_zero] at hle
    rw [Head.atEnd, List.eq_nil_of_length_eq_zero hle, List.isEmpty_nil]
  rw [readFrom, dif_pos hend]

theorem readFrom_of_word (hend : h.toWord.atEnd = false)
    (hk : h.toWord.keyword? declarationKeyword = none) :
    readFrom h declared acc = readFrom h.toWord.takeWord.2 declared acc := by
  rw [readFrom, dif_neg (by rw [hend]; decide)]
  split
  · rfl
  · rename_i k hk'
    rw [hk] at hk'
    cases hk'

theorem not_atEnd_of_keyword? (hk : h.keyword? declarationKeyword = some k) :
    h.atEnd = false := by
  have hrest := (Head.keyword?_eq_some_iff.1 hk).1.rest_eq
  cases hnil : h.rest with
  | nil =>
      rw [hnil] at hrest
      exact absurd (List.append_eq_nil_iff.1 hrest.symm).1 (by decide)
  | cons a as => rw [Head.atEnd, hnil, List.isEmpty_cons]

theorem readFrom_of_keyword? (hk : h.toWord.keyword? declarationKeyword = some k) :
    readFrom h declared acc =
      match Declaration.read declared k with
      | (.error fault, _) => ⟨acc.reverse, some fault⟩
      | (.ok d, l) => readFrom l (declared + 1) (d :: acc) := by
  rw [readFrom, dif_neg (by rw [not_atEnd_of_keyword? hk]; decide)]
  split
  · rename_i hnone
    rw [hk] at hnone
    cases hnone
  · rename_i k' hk'
    obtain rfl := Option.some.inj (hk'.symm.trans hk)
    split
    · rename_i fault l hd
      rw [hd]
    · rename_i d l hd
      rw [hd]

theorem readFrom_congr (hk : h.toWord = k.toWord) :
    readFrom h declared acc = readFrom k declared acc := by
  rw [readFrom, readFrom.eq_def k]
  generalize h.toWord = l at hk
  subst hk
  rfl

/-! ## Pieces and declarations -/

theorem readFrom_of_run {w : List UInt8} (hw : h.Takes w k) (hrun : Run isWord w)
    (hne : w ≠ []) (hstop : Stops isWord k.rest)
    (hkeyword : w ≠ Utf8.bytes declarationKeyword) :
    readFrom h declared acc = readFrom k declared acc := by
  have htoWord : h.toWord = h := Head.toWord_of_word hw hrun hne
  have hword : h.word = w := by rw [Head.word, hw.rest_eq, takeWhile_append hrun hstop]
  have hlast : h.takeWord.2 = k := by
    rw [hw.eq_skip, ← hword]
    rfl
  have hend : h.atEnd = false := by
    cases w with
    | nil => exact absurd rfl hne
    | cons a as => rw [Head.atEnd, hw.rest_eq, List.cons_append, List.isEmpty_cons]
  have hnone : h.keyword? declarationKeyword = none := by
    cases hk : h.keyword? declarationKeyword with
    | none => rfl
    | some l =>
        have heq := ((Head.keyword?_eq_some_iff_word (by decide)).1 hk).1
        exact absurd (hword.symm.trans heq) hkeyword
  rw [readFrom_of_word (by rw [htoWord]; exact hend) (by rw [htoWord]; exact hnone), htoWord,
    hlast]

theorem readFrom_of_piece {w : List UInt8} (hw : h.Takes w k) (hpiece : Piece w k.rest) :
    readFrom h declared acc = readFrom k declared acc := by
  have hrest := hw.rest_eq
  generalize hlater : k.rest = rest at hpiece
  cases hpiece with
  | lineComment hbody hnewlines hstop hend =>
      subst hlater
      exact readFrom_congr (Head.toWord_of_skipComment?
        (Head.skipComment?_of_line hw hbody hnewlines hstop hend))
  | blockComment hbody =>
      exact readFrom_congr (Head.toWord_of_skipComment?
        (Head.skipComment?_of_block hw hbody (Or.inl rfl)))
  | @openComment body hbody =>
      rw [← List.append_nil body] at hw
      exact readFrom_congr (Head.toWord_of_skipComment?
        (Head.skipComment?_of_block hw hbody (Or.inr ⟨rfl, hlater⟩)))
  | word hrun hne hstop hkeyword =>
      subst hlater
      exact readFrom_of_run hw hrun hne hstop hkeyword
  | other hword hcomment =>
      subst hlater
      rw [← hrest] at hcomment
      exact readFrom_congr (Head.toWord_of_char hw hword hcomment)

/-- Where a declaration opens, the reader has come to its first word. -/
theorem keyword?_of_takes (hk : h.Takes (Utf8.bytes declarationKeyword) k)
    (hstop : Stops isWord k.rest) : h.toWord.keyword? declarationKeyword = some k := by
  rw [Head.toWord_of_word hk (by decide) (by decide)]
  exact Head.keyword?_eq_some_iff.2 ⟨hk, hstop⟩

theorem takes_of_opensDeclaration (hopen : OpensDeclaration h.rest) :
    ∃ k, h.Takes (Utf8.bytes declarationKeyword) k ∧ Stops isWord k.rest := by
  have htakes := Head.takes_skipWhile h isWord
  rw [hopen] at htakes
  exact ⟨_, htakes, Head.stops_rest_skipWhile h isWord⟩

/-- Elsewhere a piece stands in front of it. -/
theorem takes_of_not_opensDeclaration (htext : Utf8.IsText h.rest) (hne : h.rest ≠ [])
    (hopen : ¬ OpensDeclaration h.rest) : ∃ w k, h.Takes w k ∧ w ≠ [] ∧ Piece w k.rest := by
  obtain ⟨w, rest, hrest, hw, hpiece⟩ := exists_piece htext hne hopen
  obtain ⟨k, hk, rfl⟩ := Head.exists_takes hrest
  exact ⟨w, k, hk, hw, hpiece⟩

theorem readFrom_of_declarationText {w : List UInt8}
    (hw : h.Takes (Utf8.bytes declarationKeyword ++ w) l) (hd : DeclarationText d w)
    (hfew : declared < Limits.uniforms) :
    readFrom h declared acc = readFrom l (declared + 1) (d :: acc) := by
  obtain ⟨k, hk, hl⟩ := hw.split
  have hstop : Stops isWord k.rest := by
    rw [hl.rest_eq]
    exact hd.stops
  rw [readFrom_of_keyword? (keyword?_of_takes hk hstop), Declaration.read_complete hfew hd hl]

/-! ## Whole documents -/

variable {source : Source} {before rest : List UInt8} {ds : List Declaration}

/-- Reading a document comes to every place that its decomposition comes to. -/
theorem read_eq_readFrom (hd : Decomposes before ds rest) (hrest : h.rest = rest)
    (hh : (Head.start source).Takes before h) (hfew : ds.length ≤ Limits.uniforms) :
    read source = readFrom h ds.length ds.reverse := by
  induction hd generalizing h with
  | start =>
      rw [hh.eq_of_nil]
      rfl
  | piece hbefore hw ih =>
      obtain ⟨k, hk, hl⟩ := hh.split
      subst hrest
      rw [ih hl.rest_eq hk hfew, readFrom_of_piece hl hw]
  | @declaration before w rest ds d hbefore hw ih =>
      obtain ⟨k, hk, hl⟩ := hh.split
      have hlt : ds.length < Limits.uniforms := by
        rw [List.length_append] at hfew
        exact hfew
      have hrest' : k.rest = Utf8.bytes declarationKeyword ++ w ++ rest := by
        rw [hl.rest_eq, hrest]
      rw [ih hrest' hk hlt.le, readFrom_of_declarationText hl hw hlt, List.length_append,
        List.reverse_append]
      rfl

/-- How reading a document ends: behind its last piece, or at a declaration that
has a fault. -/
inductive Ending (source : Source) : Contents → Prop
  | complete {ds : List Declaration} (hd : Decomposes source.bytes ds []) :
      Ending source ⟨ds, none⟩
  | fault {before : List UInt8} {ds : List Declaration} {h k l : Head} {e : Fault}
      (hd : Decomposes before ds h.rest) (hh : (Head.start source).Takes before h)
      (hk : h.Takes (Utf8.bytes declarationKeyword) k) (hstop : Stops isWord k.rest)
      (hr : Declaration.read ds.length k = (.error e, l)) : Ending source ⟨ds, some e⟩

theorem ending_readFrom (hd : Decomposes before ds h.rest)
    (hh : (Head.start source).Takes before h) (htext : Utf8.IsText h.rest) :
    Ending source (readFrom h ds.length ds.reverse) := by
  -- on what is left to read: a piece and a declaration both take something of it
  induction hn : h.rest.length using Nat.strong_induction_on generalizing before ds h with
  | _ n ih =>
      subst hn
      by_cases hopen : OpensDeclaration h.rest
      · obtain ⟨k, hk, hstop⟩ := takes_of_opensDeclaration hopen
        have hktext := hk.isText_rest (Utf8.isText_bytes _) htext
        rw [readFrom_of_keyword? (keyword?_of_takes hk hstop)]
        split
        · rename_i e l hr
          rw [List.reverse_reverse]
          exact .fault hd hh hk hstop hr
        · rename_i d l hr
          obtain ⟨w, hw, hl⟩ := Declaration.read_sound hktext hstop hr
          have hall := hk.append hl
          have hlt := hall.length_lt (List.append_ne_nil_of_left_ne_nil (by decide) w)
          have hlater := ((Declaration.keepsText_read ds.length).lands hktext hr).1.2
          rw [hall.rest_eq] at hd
          have hlast := ih _ hlt (.declaration hd hw) (hh.append hall) hlater rfl
          rw [List.length_append, List.reverse_append] at hlast
          exact hlast
      · by_cases hnil : h.rest = []
        · have hbefore : source.bytes = before := by
            have hrest := hh.rest_eq
            rw [hnil, List.append_nil] at hrest
            exact hrest
          rw [readFrom_of_rest_eq_nil hnil, List.reverse_reverse]
          rw [hnil, ← hbefore] at hd
          exact .complete hd
        · obtain ⟨w, k, hk, hne, hw⟩ := takes_of_not_opensDeclaration htext hnil hopen
          have hlt := hk.length_lt hne
          rw [hk.rest_eq] at hd htext
          rw [readFrom_of_piece hk hw]
          exact ih _ hlt (.piece hd hw) (hh.append hk) (hw.isText htext) rfl

theorem ending_read (htext : Utf8.IsText source.bytes) : Ending source (read source) := by
  have hstart : Decomposes [] [] (Head.start source).rest := .start
  exact ending_readFrom hstart (Head.takes_nil _) htext

/-! ## Accepted documents -/

/-- In a document without a fault every declaration that opens is read. -/
theorem read_eq_ok_of_fault_eq_none (hnone : (read source).fault = none)
    (hd : Decomposes before ds h.rest) (hh : (Head.start source).Takes before h)
    (hfew : ds.length ≤ Limits.uniforms) (hk : h.Takes (Utf8.bytes declarationKeyword) k)
    (hstop : Stops isWord k.rest) : ∃ d l, Declaration.read ds.length k = (.ok d, l) := by
  -- reading the document comes to this place, so a fault here is its fault
  have hread := read_eq_readFrom hd rfl hh hfew
  rw [readFrom_of_keyword? (keyword?_of_takes hk hstop)] at hread
  cases hr : Declaration.read ds.length k with
  | mk x l =>
      cases x with
      | ok d => exact ⟨d, l, rfl⟩
      | error e =>
          rw [hread, hr] at hnone
          cases hnone

theorem length_le_of_decomposes (hnone : (read source).fault = none)
    (hd : Decomposes before ds rest) (hrest : h.rest = rest)
    (hh : (Head.start source).Takes before h) : ds.length ≤ Limits.uniforms := by
  induction hd generalizing h with
  | start => exact Nat.zero_le _
  | piece hbefore hw ih =>
      obtain ⟨k, hk, hl⟩ := hh.split
      exact ih (by rw [hl.rest_eq, hrest]) hk
  | @declaration before w rest ds d hbefore hw ih =>
      obtain ⟨k, hk, hl⟩ := hh.split
      have hrest' : k.rest = Utf8.bytes declarationKeyword ++ w ++ rest := by
        rw [hl.rest_eq, hrest]
      obtain ⟨m, hm, hlast⟩ := hl.split
      have hstop : Stops isWord m.rest := by
        rw [hlast.rest_eq]
        exact hw.stops
      rw [← hrest'] at hbefore
      obtain ⟨_, _, hr⟩ :=
        read_eq_ok_of_fault_eq_none hnone hbefore hk (ih hrest' hk) hm hstop
      rw [List.length_append]
      exact Declaration.declared_lt_of_read hr

/-- A text without a fault is one of the grammar. -/
theorem conforms_of_fault_eq_none (htext : Utf8.IsText source.bytes)
    (hnone : (read source).fault = none) : Conforms source.bytes := by
  constructor
  · intro before ds rest hbytes hd hopen
    obtain ⟨h, hh, rfl⟩ := (Head.start source).exists_takes hbytes
    obtain ⟨k, hk, hstop⟩ := takes_of_opensDeclaration hopen
    have hfew := length_le_of_decomposes hnone hd rfl hh
    obtain ⟨d, l, hr⟩ := read_eq_ok_of_fault_eq_none hnone hd hh hfew hk hstop
    rw [hbytes] at htext
    have hktext := hk.isText_rest (Utf8.isText_bytes _) (hd.isText htext)
    obtain ⟨w, hw, hl⟩ := Declaration.read_sound hktext hstop hr
    exact ⟨d, w, l.rest, hw, (hk.append hl).rest_eq⟩
  · intro before ds rest hbytes hd
    obtain ⟨h, hh, hrest⟩ := (Head.start source).exists_takes hbytes
    exact length_le_of_decomposes hnone hd hrest hh

/-- A text of the grammar has no fault. -/
theorem fault_eq_none_of_conforms (htext : Utf8.IsText source.bytes)
    (hconforms : Conforms source.bytes) : (read source).fault = none := by
  generalize hread : read source = contents
  have hending := ending_read htext
  rw [hread] at hending
  cases hending with
  | complete hd => rfl
  | @fault before ds h k l e hd hh hk hstop hr =>
      have hopen : OpensDeclaration h.rest := by
        rw [OpensDeclaration, hk.rest_eq, takeWhile_append (by decide) hstop]
      obtain ⟨d, w, tail, hw, hrest⟩ := hconforms.declares _ _ _ hh.rest_eq hd hopen
      have hk' : k.rest = w ++ tail := by
        rw [hk.rest_eq, List.append_assoc] at hrest
        exact List.append_cancel_left hrest
      rw [hrest] at hd
      have hbytes : source.bytes =
          before ++ (Utf8.bytes declarationKeyword ++ w) ++ tail := by
        rw [List.append_assoc, ← hrest]
        exact hh.rest_eq
      have hfew := hconforms.few _ _ _ hbytes (.declaration hd hw)
      rw [List.length_append] at hfew
      rw [Declaration.read_complete hfew hw (Head.takes_skip hk')] at hr
      cases hr

/-- A text that is decomposed to its end is read to its end. -/
theorem read_eq_of_decomposes (hd : Decomposes source.bytes ds [])
    (hfew : ds.length ≤ Limits.uniforms) : read source = ⟨ds, none⟩ := by
  have hall : (Head.start source).rest = source.bytes ++ [] := (List.append_nil _).symm
  obtain ⟨h, hh, hnil⟩ := Head.exists_takes hall
  rw [read_eq_readFrom hd hnil hh hfew, readFrom_of_rest_eq_nil hnil, List.reverse_reverse]

/-- A source is accepted exactly when it is a text of the grammar, and the block
then holds one uniform for each declaration of the decomposition, in their
order. -/
theorem accepts_iff_conforms (s : String) :
    ((∃ b, scan (.ofString s) = .ok ⟨b, none⟩) ↔ Conforms (Utf8.bytes s)) ∧
      ∀ b, scan (.ofString s) = .ok ⟨b, none⟩ →
        ∀ ds, Decomposes (Utf8.bytes s) ds [] ↔ b.uniforms.map Uniform.declaration = ds := by
  have htext : Utf8.IsText (Source.ofString s).bytes := Utf8.isText_bytes s
  refine ⟨⟨?_, ?_⟩, ?_⟩
  · rintro ⟨b, hb⟩
    exact conforms_of_fault_eq_none htext (scan_eq_ok_iff.1 hb).2
  · intro hconforms
    obtain ⟨b, hb, -⟩ := scan_spec (.ofString s)
    rw [fault_eq_none_of_conforms htext hconforms] at hb
    exact ⟨b, hb⟩
  · intro b hb ds
    have hnone := (scan_eq_ok_iff.1 hb).2
    rw [(spec_of_scan hb).2.1]
    constructor
    · intro hd
      have hall : Utf8.bytes s = Utf8.bytes s ++ [] := (List.append_nil _).symm
      have hfew := (conforms_of_fault_eq_none htext hnone).few _ ds [] hall hd
      rw [read_eq_of_decomposes hd hfew]
    · rintro rfl
      have hending := ending_read htext
      generalize read (.ofString s) = contents at hending hnone
      cases hending with
      | complete hd => exact hd
      | fault hd hh hk hstop hr => cases hnone

/-- Words in comments and comments in strings do not count. -/
theorem conforms_file :
    Conforms (Utf8.bytes "/* uniform */ uniform sampler2D t (file = 'a//b'); // uniform") ∧
      Decomposes (Utf8.bytes "/* uniform */ uniform sampler2D t (file = 'a//b'); // uniform")
        [⟨.sampler2D, "t", ⟨Hint.all .zero, Hint.all .one, some "a//b"⟩⟩] [] := by
  have hscan : scan (.ofString
      "/* uniform */ uniform sampler2D t (file = 'a//b'); // uniform") =
        .ok ⟨⟨[⟨"t", .sampler2D, Hint.all .zero, Hint.all .one, 0, 0, some 0, some "a//b"⟩], 1⟩,
          none⟩ := by
    decide +kernel
  exact ⟨(accepts_iff_conforms _).1.1 ⟨_, hscan⟩, ((accepts_iff_conforms _).2 _ hscan _).2 rfl⟩

end Document

end UniformBlock
