import UniformBlock.Proofs.Moves
import UniformBlock.Proofs.Sliced

/-!
# No slice is refused

Reading through slices gives what reading gives (`Sliced.read_eq`): no slice is
refused in any text. A slice is refused only off a character boundary, out of
range, or between offsets in the wrong order, and readers stay on character
boundaries. So `Agrees` compares a sliced reader with its original on boundaries
only, and composition keeps the comparison up (`Agrees.bind`), since the first
part leads the second one to a boundary again.
-/

namespace UniformBlock

open Ascii Grammar Reading

namespace Utf8

theorem mapM_id_map_some (cs : List Char) : (cs.map some).mapM id = some cs := by
  induction cs with
  | nil => rfl
  | cons c cs ih =>
      simp only [List.map_cons, List.mapM_cons, ih]
      rfl

theorem text?_encode (cs : List Char) : text? (encode cs) = some (String.ofList cs) := by
  rw [text?, read, readAfter_encode, List.reverse_nil, List.nil_append, mapM_id_map_some]
  rfl

theorem text?_of_isText {bs : List UInt8} (h : IsText bs) : text? bs = some (text bs) := by
  obtain ⟨cs, rfl⟩ := h
  rw [text?_encode, text_encode]

end Utf8

namespace Source

variable {source : Source} {u v w : List UInt8}

theorem isBoundary_of_startsChar {n : Nat} (hn : n ≤ source.size)
    (hstart : Utf8.StartsChar (source.bytes.drop n)) : source.isBoundary n = true := by
  rw [isBoundary, Bool.and_eq_true, decide_eq_true_eq]
  refine ⟨hn, ?_⟩
  rw [Utf8.StartsChar, List.head?_drop] at hstart
  cases hb : source.bytes[n]? with
  | none => rfl
  | some b => rw [Option.any_some, hstart b hb]; rfl

/-- The text between two others is never refused. -/
theorem slice?_append (hsource : source.bytes = u ++ (v ++ w)) (hv : Utf8.IsText v)
    (hw : Utf8.IsText w) :
    source.slice? u.length (u.length + v.length) = some (Utf8.text v) := by
  have hsize : source.size = u.length + (v.length + w.length) := by
    rw [source.size_eq, hsource, List.length_append, List.length_append]
  have hfirst : source.isBoundary u.length = true := by
    refine isBoundary_of_startsChar (by omega) ?_
    rw [hsource, List.drop_left]
    exact (hv.append hw).startsChar
  have hlast : source.isBoundary (u.length + v.length) = true := by
    refine isBoundary_of_startsChar (by omega) ?_
    rw [hsource, ← List.append_assoc, ← List.length_append, List.drop_left]
    exact hw.startsChar
  have hcut : (source.bytes.take (u.length + v.length)).drop u.length = v := by
    rw [hsource, ← List.append_assoc, ← List.length_append, List.take_left, List.drop_left]
  rw [slice?, hfirst, hlast, hcut, Utf8.text?_of_isText hv, if_pos (by simp)]

end Source

namespace Head

variable {h k : Head} {w : List UInt8}

theorem bytes_eq_take_append_rest (h : Head) :
    h.source.bytes = h.source.bytes.take h.pos ++ h.rest := by
  rw [h.rest_eq, List.take_append_drop]

theorem length_take_pos (h : Head) : (h.source.bytes.take h.pos).length = h.pos :=
  List.length_take_of_le (h.source.size_eq ▸ h.pos_le)

/-- On a boundary the whole rest is left to read. -/
theorem remaining?_eq (hh : Utf8.IsText h.rest) :
    ∃ t, h.remaining? = some t ∧ Utf8.bytes t = h.rest := by
  have hsource : h.source.bytes = h.source.bytes.take h.pos ++ (h.rest ++ []) := by
    rw [List.append_nil]
    exact h.bytes_eq_take_append_rest
  have hslice := Source.slice?_append hsource hh Utf8.isText_nil
  rw [length_take_pos, length_rest, Nat.add_sub_cancel' h.pos_le] at hslice
  exact ⟨Utf8.text h.rest, hslice, Utf8.bytes_text hh⟩

/-- Inside a character nothing is left to read. -/
example : ((Head.start (.ofString "é")).skip 1).remaining? = none := by decide

/-- Between two boundaries lies the text that was taken. -/
theorem Takes.textFrom?_eq (hw : h.Takes w k) (htext : Utf8.IsText w) (hh : Utf8.IsText h.rest) :
    k.textFrom? h.pos = some (Utf8.text w) := by
  have hsource : h.source.bytes = h.source.bytes.take h.pos ++ (w ++ k.rest) := by
    rw [← hw.rest_eq]
    exact h.bytes_eq_take_append_rest
  have hslice := Source.slice?_append hsource htext (hw.isText_rest htext hh)
  rw [length_take_pos, ← hw.pos_eq, ← hw.reaches.source_eq] at hslice
  exact hslice

end Head

namespace Sliced

variable {α β : Type} {h k : Head}

/-! ## Words and gaps -/

theorem keyword?_eq (hh : Utf8.IsText h.rest) (keyword : String) :
    keyword? h keyword = some (h.keyword? keyword) := by
  obtain ⟨t, ht, hbytes⟩ := h.remaining?_eq hh
  simp only [keyword?, ht, Option.bind_eq_bind, Option.bind_some, hbytes, Head.keyword?,
    Head.peekAt?, List.head?_drop]
  split <;> rfl

theorem firstKeyword?_eq (hh : Utf8.IsText h.rest) (spellings : List (String × α)) :
    firstKeyword? h spellings = some (Value.firstKeyword? h spellings) := by
  induction spellings with
  | nil => rfl
  | cons s more ih =>
      obtain ⟨keyword, a⟩ := s
      rw [firstKeyword?, keyword?_eq hh, Value.firstKeyword?]
      cases h.keyword? keyword with
      | none => exact ih
      | some k => rfl

theorem skipComment?_eq (hh : Utf8.IsText h.rest) :
    skipComment? h = some h.skipComment? := by
  unfold skipComment? Head.skipComment?
  split
  · rfl
  · split
    · rename_i hblock
      obtain ⟨cs, hcs⟩ := Head.startsBlock_iff.1 hblock
      have hopen : h.Takes [slash, star] (h.skip 2) := Head.takes_skip hcs
      have hmark : Utf8.IsText [slash, star] := Utf8.isText_bytes "/*"
      have htwo := hopen.isText_rest hmark hh
      obtain ⟨t, ht, hbytes⟩ := (h.skip 2).remaining?_eq htwo
      rw [ht, Option.bind_eq_bind, Option.bind_some, hbytes, Head.skip_skip, Head.rest_skip]
    · rfl

theorem skipGap?_eq (hh : Utf8.IsText h.rest) : skipGap? h = some h.skipGap? := by
  rw [skipGap?, skipComment?_eq hh, Head.skipGap?]
  cases h.skipComment? with
  | some later => rfl
  | none =>
      simp only [Option.bind_eq_bind, Option.bind_some]
      split
      · rfl
      · split <;> rfl

theorem toWord_eq (hh : Utf8.IsText h.rest) : toWord h = some h.toWord := by
  fun_induction Head.toWord h with
  | case1 h later hg ih =>
      rw [toWord, skipGap?_eq hh, hg]
      simp only [Option.bind_eq_bind, Option.bind_some]
      rw [dif_pos (Head.length_skipGap?_lt hg)]
      exact ih (Head.meets_of_skipGap? hg hh).2
  | case2 h hg =>
      rw [toWord, skipGap?_eq hh, hg]
      rfl

theorem takeWord_eq (hh : Utf8.IsText h.rest) : takeWord h = some h.takeWord := by
  have htakes : h.Takes h.word (h.skipWhile isWord) := Head.takes_skipWhile h isWord
  rw [takeWord]
  simp only [htakes.textFrom?_eq h.isText_word hh]
  rfl

/-! ## Numbers -/

theorem getElem?_append_length (u v : List UInt8) : (u ++ v)[u.length]? = v.head? := by
  rw [List.getElem?_append_right (Nat.le_refl _), Nat.sub_self, List.head?_eq_getElem?]

theorem digitsFrom?_append (u v : List UInt8) :
    digitsFrom? (u ++ v) u.length = some (v.takeWhile isDigit).length := by
  rw [digitsFrom?, if_pos (by simp), List.drop_left]

theorem signLength_append (u v : List UInt8) :
    signLength (u ++ v) u.length = (takeSign v).1.toList.length := by
  rw [signLength, getElem?_append_length]
  cases v with
  | nil => rfl
  | cons b bs => by_cases hb : isSign b = true <;> simp [takeSign, hb]

theorem fractionLength?_append (whole u v : List UInt8) :
    fractionLength? (u ++ v) whole.length u.length =
      some ((FloatLiteral.takeFraction? whole v).map List.length) := by
  rw [fractionLength?, getElem?_append_length]
  cases v with
  | nil => rfl
  | cons b bs =>
      rw [List.head?_cons, FloatLiteral.takeFraction?]
      by_cases hb : b = point
      · have hdigits : digitsFrom? (u ++ b :: bs) (u.length + 1) =
            some (bs.takeWhile isDigit).length := by
          simpa using digitsFrom?_append (u ++ [b]) bs
        rw [if_pos (by rw [hb]), hdigits]
        simp only [Option.bind_eq_bind, Option.bind_some, List.length_eq_zero_iff, hb, ne_eq,
          not_true_eq_false, false_or]
        split <;> rfl
      · rw [if_neg (by simpa using hb)]
        simp [hb]

theorem exponentLength?_append (u v : List UInt8) :
    exponentLength? (u ++ v) u.length =
      some (((Exponent.take? v).map Exponent.bytes).getD []).length := by
  rw [exponentLength?, getElem?_append_length]
  cases v with
  | nil => rfl
  | cons b bs =>
      rw [List.head?_cons, Option.any_some, Exponent.take?]
      by_cases hmark : (b == lowerE || b == upperE) = true
      · rw [if_pos hmark, if_pos hmark]
        have hsign : signLength (u ++ b :: bs) (u.length + 1) = (takeSign bs).1.toList.length := by
          simpa using signLength_append (u ++ [b]) bs
        have hdigits : digitsFrom? (u ++ b :: bs) (u.length + 1 + (takeSign bs).1.toList.length) =
            some ((takeSign bs).2.takeWhile isDigit).length := by
          have h := digitsFrom?_append (u ++ b :: (takeSign bs).1.toList) (takeSign bs).2
          rw [List.append_assoc, List.cons_append, takeSign_append, List.length_append,
            List.length_cons, Nat.add_comm _ 1, ← Nat.add_assoc] at h
          exact h
        simp only [hsign, hdigits, Option.bind_eq_bind, Option.bind_some]
        cases hd : (takeSign bs).2.takeWhile isDigit with
        | nil => rfl
        | cons d ds =>
            simp only [List.length_cons, Nat.add_one_ne_zero, if_false, Option.map_some,
              Option.getD_some, Exponent.bytes, List.length_append]
            congr 1
            omega
      · rw [if_neg hmark, if_neg hmark]
        rfl

/-- A fraction and what is left behind it make up the bytes. -/
theorem takeFraction?_append (whole bs : List UInt8) :
    ((FloatLiteral.takeFraction? whole bs).map (point :: ·)).getD [] ++
      bs.drop (((FloatLiteral.takeFraction? whole bs).map (·.length + 1)).getD 0) = bs := by
  cases hf : FloatLiteral.takeFraction? whole bs with
  | none => rfl
  | some ds => exact (FloatLiteral.takeFraction?_sound hf).2.2.symm

/-- The slices of bytes lie inside them, and give the length of the literal. -/
theorem scanNumber?_eq (bs : List UInt8) :
    scanNumber? bs = some ((FloatLiteral.take? bs).map FloatLiteral.length) := by
  have hsign : signLength bs 0 = (takeSign bs).1.toList.length := signLength_append [] bs
  have hbs := takeSign_append bs
  rw [scanNumber?, FloatLiteral.take?]
  simp only [hsign]
  generalize (takeSign bs).1 = sign at hbs ⊢
  generalize (takeSign bs).2 = signed at hbs ⊢
  have hwhole := digitsFrom?_append sign.toList signed
  have hsigned := takeWhile_append_drop isDigit signed
  rw [hbs] at hwhole
  simp only [hwhole, Option.bind_eq_bind, Option.bind_some]
  generalize signed.takeWhile isDigit = whole at hsigned ⊢
  generalize signed.drop whole.length = after at hsigned ⊢
  have hfraction := fractionLength?_append whole (sign.toList ++ whole) after
  have hafter := takeFraction?_append whole after
  rw [List.append_assoc, hsigned, hbs, List.length_append] at hfraction
  simp only [hfraction, Option.bind_some]
  generalize FloatLiteral.takeFraction? whole after = fraction at hafter ⊢
  by_cases hnone : whole = [] ∧ fraction = none
  · rw [if_pos hnone, if_pos (by simpa using hnone)]
    rfl
  · rw [if_neg hnone, if_neg (by simpa using hnone)]
    have hlength : ((fraction.map (point :: ·)).getD []).length =
        ((fraction.map List.length).map (· + 1)).getD 0 := by
      cases fraction <;> rfl
    have hexponent := exponentLength?_append
      (sign.toList ++ whole ++ (fraction.map (point :: ·)).getD [])
      (after.drop ((fraction.map (·.length + 1)).getD 0))
    rw [List.append_assoc, List.append_assoc, hafter, hsigned, hbs, List.length_append,
      List.length_append, hlength] at hexponent
    simp only [hexponent, Option.bind_some, Option.map_some, FloatLiteral.length,
      FloatLiteral.bytes, List.length_append, hlength]

/-! ## Readers -/

/-- On a character boundary the sliced reader gives what the reader gives. -/
def Agrees (c : Sliced α) (r : Reading α) : Prop :=
  ∀ h : Head, Utf8.IsText h.rest → c h = some (r h)

theorem agrees_lift (r : Reading α) : Agrees (liftM r) r := fun _ _ => rfl

theorem agrees_pure (a : α) : Agrees (pure a) (pure a) := fun _ _ => rfl

/-- The first reader leads the second one to a character boundary. -/
theorem Agrees.bind {c : Sliced α} {r : Reading α} {g : α → Sliced β} {f : α → Reading β}
    (hc : Agrees c r) (hr : KeepsText r) (hg : ∀ a, Agrees (g a) (f a)) :
    Agrees (c >>= g) (r >>= f) := by
  intro h hh
  have hmeets := (hr h hh).1
  simp only [Bind.bind, hc h hh]
  generalize r h = result at hmeets ⊢
  obtain ⟨e | a, k⟩ := result
  · rfl
  · exact hg a k hmeets.2

theorem Agrees.mapFault {c : Sliced α} {r : Reading α} (hc : Agrees c r) (f : Fault → Fault) :
    Agrees (c.mapFault f) (r.mapFault f) := by
  intro h hh
  simp only [Sliced.mapFault, Reading.mapFault, hc h hh]
  obtain ⟨e | a, k⟩ := r h <;> rfl

/-- A text can be cut behind a text in front of it. -/
theorem initial?_append {t : String} {u v : List UInt8} (ht : Utf8.bytes t = u ++ v)
    (hu : Utf8.IsText u) : initial? t u.length = some (Utf8.text u) := by
  have hv : Utf8.IsText v := Utf8.IsText.of_append (ht ▸ Utf8.isText_bytes t) hu
  have hslice : (Source.ofString t).slice? 0 (0 + u.length) = some (Utf8.text u) :=
    Source.slice?_append (u := []) ht hu hv
  rwa [Nat.zero_add] at hslice

theorem agrees_float : Agrees float Value.float := by
  intro h hh
  obtain ⟨t, ht, hbytes⟩ := h.remaining?_eq hh
  rw [float, ht, Value.float, Option.bind_eq_bind, Option.bind_some, hbytes, scanNumber?_eq]
  cases hl : FloatLiteral.take? h.rest with
  | none => rfl
  | some l =>
      obtain ⟨hform, rest, hrest⟩ := FloatLiteral.take?_sound hl
      have hcut : initial? t l.length = some (Utf8.text l.bytes) :=
        initial?_append (hbytes.trans hrest) hform.isText
      have htake : FloatLiteral.take? (Utf8.bytes (Utf8.text l.bytes)) = some l := by
        rw [Utf8.bytes_text hform.isText, ← List.append_nil l.bytes]
        exact FloatLiteral.take?_complete hform stops_nil
      simp only [Option.map_some, Option.bind_eq_bind, Option.bind_some, hcut, htake]

theorem agrees_components (kind : TupleKind) {c : Sliced α} {r : Reading α} (hc : Agrees c r)
    (hr : KeepsText r) (index n : Nat) :
    Agrees (components kind c index n) (Value.components kind r index n) := by
  induction n generalizing index with
  | zero => exact agrees_pure []
  | succ n ih =>
      have hfault := hr.mapFault (Value.offset_asComponent index kind)
      refine (agrees_lift _).bind (Value.keepsText_separator index) fun _ => ?_
      refine (agrees_lift _).bind keepsText_skipBlanks fun _ => ?_
      refine (hc.mapFault _).bind hfault fun a => ?_
      exact (ih (index + 1)).bind (Value.keepsText_components kind hr _ n) fun as => agrees_pure _

theorem agrees_tuple (kind : TupleKind) {c : Sliced α} {r : Reading α} (hc : Agrees c r)
    (hr : KeepsText r) (n : Nat) : Agrees (tuple kind c n) (Value.tuple kind r n) := by
  refine (agrees_lift _).bind (keepsText_expect (by decide) _) fun _ => ?_
  refine (agrees_components kind hc hr 1 n).bind (Value.keepsText_components kind hr 1 n)
    fun as => ?_
  refine (agrees_lift _).bind keepsText_skipBlanks fun _ => ?_
  exact (agrees_lift _).bind (keepsText_expect (by decide) _) fun _ => agrees_pure as

theorem agrees_stringBody {quote : UInt8} (hquote : quote.toNat < 0x80) :
    Agrees (stringBody quote) (Value.stringBody quote) := by
  intro h hh
  obtain ⟨t, ht, hbytes⟩ := h.remaining?_eq hh
  have hbody := (Value.stringBody_spec hquote hh).1
  have htakes := Head.takes_skipWhile h (· != quote)
  have hcut := htakes.textFrom?_eq hbody hh
  rw [Head.skipWhile] at hcut
  rw [stringBody, ht, Value.stringBody]
  simp only [Option.bind_eq_bind, Option.bind_some, hbytes, hcut]
  cases (h.skip (h.rest.takeWhile (· != quote)).length).eat? quote <;> rfl

theorem agrees_string : Agrees string Value.string := by
  intro h hh
  rw [string, Value.string]
  cases hb : h.peek? with
  | none => rfl
  | some b =>
      by_cases hquote : Value.isQuote b = true
      · have hascii := toNat_lt_of_isQuote hquote
        have heat : h.eat? b = some (h.skip 1) := if_pos hb
        simp only [hquote, if_true]
        exact agrees_stringBody hascii _ (Head.meets_of_eat? hascii heat hh).2
      · simp only [hquote]
        rfl

theorem agrees_boundedString (max : Option Nat) :
    Agrees (boundedString max) (Value.boundedString max) := by
  intro h hh
  rw [boundedString, Value.boundedString, agrees_string h hh]
  obtain ⟨e | s, k⟩ := Value.string h
  · rfl
  · cases max with
    | none => rfl
    | some bound =>
        simp only
        split <;> rfl

theorem agrees_afterName (name : String) {c : Sliced α} {r : Reading α} (hc : Agrees c r) :
    Agrees (afterName name c) (Value.afterName name r) := by
  refine (agrees_lift _).bind keepsText_skipBlanks fun _ => ?_
  refine (agrees_lift _).bind (keepsText_expect (by decide) _) fun _ => ?_
  exact (agrees_lift _).bind keepsText_skipBlanks fun _ => hc

theorem agrees_argument (name : String) {c : Sliced α} {r : Reading α} (hc : Agrees c r) :
    Agrees (argument name c) (Value.argument name r) := by
  intro h hh
  rw [argument, keyword?_eq hh, Value.argument]
  cases hk : h.keyword? name with
  | none => rfl
  | some k =>
      simp only [Option.bind_eq_bind, Option.bind_some,
        agrees_afterName name hc k (Head.meets_of_keyword? hk hh).2]
      obtain ⟨e | a, l⟩ := Value.afterName name r k <;> rfl

theorem agrees_readHint (components : Nat) :
    Agrees (readHint components) (Metadata.readHint components) := by
  unfold readHint Metadata.readHint
  split
  · exact agrees_float.bind Value.keepsText_float fun x => agrees_pure [x]
  · exact agrees_tuple _ agrees_float Value.keepsText_float components

theorem agrees_readHints {components : Nat} (hfew : components ≤ 4) (metadata : Metadata) :
    Agrees (readHints components metadata) (Metadata.readHints components metadata) := by
  intro h hh
  have hoverwrite (hint : Hint) (values : List Single) :
      overwrite? hint components values = some (hint.overwrite values) := if_pos hfew
  have hmean := agrees_argument "mean" (agrees_readHint components) h hh
  have hmeets := (Value.keepsText_argument "mean" (Metadata.keepsText_readHint components) h hh).1
  rw [readHints, hmean, Metadata.readHints]
  generalize Value.argument "mean" (Metadata.readHint components) h = result at hmeets ⊢
  obtain ⟨e | (_ | values), k⟩ := result
  · rfl
  · simp only [Option.bind_eq_bind, Option.bind_some,
      agrees_argument "scale" (agrees_readHint components) k hmeets.2]
    obtain ⟨e | (_ | values), l⟩ := Value.argument "scale" (Metadata.readHint components) k
    · rfl
    · rfl
    · simp only [hoverwrite, Option.bind_some]
  · simp only [Option.bind_eq_bind, Option.bind_some, hoverwrite]

theorem agrees_readFile (metadata : Metadata) :
    Agrees (readFile metadata) (Metadata.readFile metadata) := by
  intro h hh
  rw [readFile, agrees_argument "file" (agrees_boundedString _) h hh, Metadata.readFile,
    Value.stringArgument]
  obtain ⟨e | (_ | path), k⟩ :=
    Value.argument "file" (Value.boundedString (some Limits.pathBytes)) h <;> rfl

theorem agrees_readArgument (type : UniformType) (metadata : Metadata) :
    Agrees (readArgument type metadata) (Metadata.readArgument type metadata) := by
  unfold readArgument Metadata.readArgument
  cases hn : type.components? with
  | some n => exact agrees_readHints (Metadata.le_four_of_components? hn) metadata
  | none =>
      simp only
      split
      · exact agrees_readFile metadata
      · exact agrees_pure none

theorem agrees_readArguments (type : UniformType) (list : ArgumentList) (metadata : Metadata) :
    Agrees (readArguments type list metadata) (Metadata.readArguments type list metadata) := by
  intro h hh
  fun_induction Metadata.readArguments type list metadata h with
  | case1 list metadata h e k hn => rw [readArguments, hn]
  | case2 list metadata h later k hn e l hf =>
      rw [readArguments, hn]
      simp only [hf]
  | case3 list metadata h later k hn u l hf =>
      rw [readArguments, hn]
      simp only [hf]
  | case4 list metadata h later k hn e l hr =>
      have hk := ((ArgumentList.keepsText_next list).lands hh hn).1
      rw [readArguments, hn]
      simp only [agrees_readArgument type metadata k hk.2, hr]
  | case5 list metadata h later k hn updated l hr ih =>
      have hk := ((ArgumentList.keepsText_next list).lands hh hn).1
      have hl := ((Metadata.keepsText_readArgument type metadata).lands hk.2 hr).1
      have hle : k.rest.length ≤ h.rest.length := hk.reaches.length_le
      have hturns := ArgumentList.turns_of_next hn
      have hlt := Metadata.length_lt_of_readArgument_some hr
      rw [readArguments, hn]
      simp only [agrees_readArgument type metadata k hk.2, hr]
      rw [dif_pos (by omega)]
      exact ih hl.2
  | case6 list metadata h later k hn l hr ih =>
      have hk := ((ArgumentList.keepsText_next list).lands hh hn).1
      have hle : k.rest.length ≤ h.rest.length := hk.reaches.length_le
      have hturns := ArgumentList.turns_of_next hn
      obtain rfl := Metadata.eq_of_readArgument_none hr
      have hflag := later.turns_flag
      rw [readArguments, hn]
      simp only [agrees_readArgument type metadata _ hk.2, hr]
      rw [dif_pos (by omega)]
      exact ih hk.2

theorem agrees_readType : Agrees readType Declaration.readType := by
  intro h hh
  rw [readType, firstKeyword?_eq hh, Declaration.readType]
  cases Value.firstKeyword? h (UniformType.all.map fun t => (t.keyword, t)) <;> rfl

theorem agrees_readName : Agrees readName Declaration.readName := by
  intro h hh
  have hlength : h.takeWord.1.utf8ByteSize = h.word.length := by
    rw [← Utf8.length_bytes, h.bytes_takeWord]
  rw [readName, takeWord_eq hh, Declaration.readName]
  generalize h.takeWord = taken at hlength ⊢
  obtain ⟨name, k⟩ := taken
  simp only [Option.bind_eq_bind, Option.bind_some, hlength]
  by_cases hempty : h.word.length = 0
  · rw [if_pos hempty, if_pos hempty]
  · rw [if_neg hempty, if_neg hempty]
    by_cases hend : k.atEnd = true
    · rw [if_pos hend, if_pos hend]
    · rw [if_neg hend, if_neg hend]
      split <;> rfl

theorem agrees_readMetadata (type : UniformType) :
    Agrees (readMetadata type) (Declaration.readMetadata type) := by
  intro h hh
  have hbegin := (ArgumentList.keepsText_begin h hh).1
  unfold readMetadata Declaration.readMetadata Metadata.read
  split
  · generalize ArgumentList.begin h = result at hbegin ⊢
    obtain ⟨e | list, k⟩ := result
    · rfl
    · exact agrees_readArguments type list .default k hbegin.2
  · rfl

theorem agrees_readDeclaration (declared : Nat) :
    Agrees (readDeclaration declared) (Declaration.read declared) := by
  unfold readDeclaration Declaration.read
  split
  · exact agrees_lift _
  · refine (agrees_lift _).bind keepsText_skipBlanks fun _ => ?_
    refine agrees_readType.bind Declaration.keepsText_readType fun type => ?_
    refine (agrees_lift _).bind keepsText_skipBlanks fun _ => ?_
    refine agrees_readName.bind Declaration.keepsText_readName fun name => ?_
    refine (agrees_lift _).bind keepsText_skipBlanks fun _ => ?_
    refine (agrees_readMetadata type).bind (Declaration.keepsText_readMetadata type) fun m => ?_
    refine (agrees_lift _).bind keepsText_skipBlanks fun _ => ?_
    exact (agrees_lift _).bind (keepsText_expect (by decide) _) fun _ => agrees_pure _

/-! ## Documents -/

theorem readFrom_eq (hh : Utf8.IsText h.rest) (declared : Nat) (acc : List Declaration) :
    readFrom h declared acc = some (Document.readFrom h declared acc) := by
  fun_induction Document.readFrom h declared acc with
  | case1 h declared acc hend =>
      rw [readFrom, toWord_eq hh]
      simp only [Option.bind_eq_bind, Option.bind_some, hend, if_true]
  | case2 h declared acc hend hk ih =>
      have hword := Head.meets_toWord hh
      have hlt := Document.length_takeWord_toWord_lt (Bool.eq_false_iff.2 hend)
      rw [readFrom, toWord_eq hh]
      simp only [Option.bind_eq_bind, Option.bind_some, hend, keyword?_eq hword.2, hk,
        takeWord_eq hword.2]
      rw [dif_pos hlt]
      exact ih (Head.meets_takeWord hword.2).2
  | case3 h declared acc hend k hk fault l hd =>
      have hword := Head.meets_toWord hh
      have hkeyword := Head.meets_of_keyword? hk hword.2
      rw [readFrom, toWord_eq hh]
      simp only [Option.bind_eq_bind, Option.bind_some, hend, keyword?_eq hword.2, hk,
        agrees_readDeclaration declared k hkeyword.2, hd]
      rfl
  | case4 h declared acc hend k hk d l hd ih =>
      have hword := Head.meets_toWord hh
      have hkeyword := Head.meets_of_keyword? hk hword.2
      have hread := ((Declaration.keepsText_read declared).lands hkeyword.2 hd).1
      have hlt := Document.length_read_lt hk hd
      rw [readFrom, toWord_eq hh]
      simp only [Option.bind_eq_bind, Option.bind_some, hend, keyword?_eq hword.2, hk,
        agrees_readDeclaration declared k hkeyword.2, hd]
      rw [dif_pos hlt]
      exact ih hread.2

theorem read_eq (s : String) : read (.ofString s) = some (Document.read (.ofString s)) :=
  readFrom_eq (h := .start (.ofString s)) (Utf8.isText_bytes s) 0 []

theorem scan_eq (s : String) : scan (.ofString s) = some (Document.scan (.ofString s)) := by
  rw [scan, read_eq]
  rfl

end Sliced

namespace Document

/-- Reading stays between the characters of a text: every operation on a head
between two characters leads to such a place again, further on in the text, by steps that
go exactly as far as they say, and no scan takes a slice that is refused. -/
theorem boundaries_kept (s : String) :
    (∀ h k : Head, h.source = .ofString s → (⟨h.pos⟩ : String.Pos.Raw).IsValid s → h.Move k →
      h.Treads k ∧ k.source = .ofString s ∧ h.pos ≤ k.pos ∧ k.pos ≤ s.utf8ByteSize ∧
        (⟨k.pos⟩ : String.Pos.Raw).IsValid s) ∧
      Sliced.scan (.ofString s) = some (scan (.ofString s)) :=
  ⟨fun _ _ hsource hpos hm => hm.boundary hsource hpos, Sliced.scan_eq s⟩

/-- The comment ends behind a character of two bytes, and the name of the second
declaration is missing behind another one. -/
theorem boundaries_kept_comment :
    ((Head.start (.ofString "/*é*/uniform int n; uniform float é;")).toWord.pos = 6 ∧
      (⟨6⟩ : String.Pos.Raw).IsValid "/*é*/uniform int n; uniform float é;") ∧
      Sliced.scan (.ofString "/*é*/uniform int n; uniform float é;") =
        some (.ok ⟨⟨[⟨"n", .int, Hint.all .zero, Hint.all .one, 0, 1, none, none⟩], 0⟩,
          some ⟨35, .nameMissing⟩⟩) := by
  have hkept := boundaries_kept "/*é*/uniform int n; uniform float é;"
  have hpos : (Head.start (.ofString "/*é*/uniform int n; uniform float é;")).toWord.pos = 6 := by
    decide +kernel
  have hmove := hkept.1 (Head.start (.ofString "/*é*/uniform int n; uniform float é;")) _ rfl
    String.Pos.Raw.isValid_zero .toWord
  rw [hpos] at hmove
  refine ⟨⟨hpos, hmove.2.2.2.2⟩, ?_⟩
  rw [hkept.2]
  decide +kernel

end Document

end UniformBlock
