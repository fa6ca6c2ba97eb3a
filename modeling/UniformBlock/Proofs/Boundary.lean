import UniformBlock.Proofs.Literal
import UniformBlock.Proofs.Utf8

/-!
# Readers stay on character boundaries

Readers move their heads by steps, each by a number of bytes (`Passes`). There are always
as many bytes in front of the head, so no step is cut short at the end of the source
(`Passes.pos_skip`), and a head that comes to its place by steps has gone exactly as far
as they say (`Treads`).

A head stands on a character boundary when what is left to read is a text. From
such a head every reader of the library ends on a character boundary again, not
before the place where it began, whether it succeeds or fails, and the fault it
reports lies at a place of the same kind (`Head.Lands`). Composition keeps this
property (`KeepsText.bind`), so that it has to be shown for the basic readers
only: they stop in front of a byte of the ASCII range, behind one, or at the end.
-/

namespace UniformBlock

open Ascii Grammar

namespace Utf8

/-- Every byte of a class lies in the ASCII range. -/
theorem isText_of_run {p : UInt8 → Bool} (hp : ∀ b, p b = true → b.toNat < 0x80)
    {bs : List UInt8} (h : Run p bs) : IsText bs :=
  isText_of_ascii fun b hb => hp b (h b hb)

theorem startsChar_cons {b : UInt8} {bs : List UInt8} (hb : b.toNat < 0x80) :
    StartsChar (b :: bs) := by
  intro a ha
  obtain rfl : b = a := by simpa using ha
  rw [Bool.eq_false_iff, ne_eq, isContinuation_iff]
  omega

/-- Only bytes of the ASCII range stop the class, so a character begins where it stops. -/
theorem startsChar_of_stops {p : UInt8 → Bool} (hp : ∀ b, p b = false → b.toNat < 0x80)
    {bs : List UInt8} (h : Stops p bs) : StartsChar bs := by
  cases bs with
  | nil => exact isText_nil.startsChar
  | cons b bs => exact startsChar_cons (hp b (stops_cons.1 h))

end Utf8

namespace Ascii

theorem toNat_lt_of_isBlank {b : UInt8} (h : isBlank b = true) : b.toNat < 0x80 := by
  simp only [isBlank, Bool.or_eq_true, beq_iff_eq] at h
  rcases h with ((rfl | rfl) | rfl) | rfl <;> decide

theorem toNat_lt_of_isDigit {b : UInt8} (h : isDigit b = true) : b.toNat < 0x80 :=
  toNat_lt_of_isWord (isWord_of_isDigit h)

theorem toNat_lt_of_isSign {b : UInt8} (h : isSign b = true) : b.toNat < 0x80 := by
  simp only [isSign, Bool.or_eq_true, beq_iff_eq] at h
  rcases h with rfl | rfl <;> decide

theorem toNat_lt_of_isQuote {b : UInt8} (h : Value.isQuote b = true) : b.toNat < 0x80 := by
  simp only [Value.isQuote, Bool.or_eq_true, beq_iff_eq] at h
  rcases h with rfl | rfl <;> decide

end Ascii

namespace Head

/-! ## Steps -/

theorem blockLength_le (n : Nat) (bs : List UInt8) : blockLength n bs ≤ n + bs.length := by
  induction bs generalizing n with
  | nil => exact Nat.le_refl n
  | cons b bs ih =>
      rw [blockLength, List.length_cons]
      split
      · rename_i hmark
        have hne : bs ≠ [] := by
          rintro rfl
          simp at hmark
        have hpos := List.length_pos_iff.2 hne
        omega
      · have hle := ih (n + 1)
        omega

theorem punctuationLength_le (n : Nat) (bs : List UInt8) :
    punctuationLength n bs ≤ n + bs.length := by
  induction bs generalizing n with
  | nil => exact Nat.le_refl n
  | cons b bs ih =>
      rw [punctuationLength, List.length_cons]
      split
      · exact Nat.le_add_right _ _
      · have hle := ih (n + 1)
        omega

/-- The numbers of bytes by which the operations on a head move it. -/
inductive Passes (h : Head) : Nat → Prop
  | run (p : UInt8 → Bool) : Passes h (h.rest.takeWhile p).length
  | byte {b : UInt8} (hb : h.peek? = some b) : Passes h 1
  | block (hb : startsBlock h.rest = true) : Passes h (2 + blockLength 0 (h.rest.drop 2))
  | punctuation : Passes h (punctuationLength 0 h.rest)
  | keyword {keyword : String} {k : Head} (hk : h.keyword? keyword = some k) :
      Passes h (Utf8.bytes keyword).length
  | integer {l : IntegerLiteral} (hl : IntegerLiteral.take? h.rest = some l) : Passes h l.length
  | float {l : FloatLiteral} (hl : FloatLiteral.take? h.rest = some l) : Passes h l.length

variable {h k l : Head} {n : Nat}

theorem Takes.length_le {w : List UInt8} (hw : h.Takes w k) : w.length ≤ h.rest.length := by
  rw [hw.rest_eq, List.length_append]
  exact Nat.le_add_right _ _

theorem Passes.le (hn : h.Passes n) : n ≤ h.rest.length := by
  cases hn with
  | run p => exact (List.takeWhile_prefix p).length_le
  | byte hb => exact ((eat?_eq_some_iff (k := h.skip 1)).1 (if_pos hb)).length_le
  | block hb =>
      obtain ⟨cs, hcs⟩ := startsBlock_iff.1 hb
      have hle := blockLength_le 0 cs
      rw [hcs]
      simp only [List.drop_succ_cons, List.drop_zero, List.length_cons]
      omega
  | punctuation => exact (punctuationLength_le 0 h.rest).trans_eq (Nat.zero_add _)
  | keyword hk => exact (keyword?_eq_some_iff.1 hk).1.length_le
  | integer hl =>
      obtain ⟨-, rest, hrest⟩ := IntegerLiteral.take?_sound hl
      exact (takes_skip hrest).length_le
  | float hl =>
      obtain ⟨-, rest, hrest⟩ := FloatLiteral.take?_sound hl
      exact (takes_skip hrest).length_le

/-- A step goes exactly as far as it says. -/
theorem Passes.pos_skip (hn : h.Passes n) : (h.skip n).pos = h.pos + n := by
  have hle := hn.le
  have hpos := h.pos_le
  rw [length_rest] at hle
  exact Nat.min_eq_left (by omega)

/-- `k` is reached from `h` by steps, and each of them goes as far as it says. -/
inductive Treads (h : Head) : Head → Prop
  | refl : Treads h h
  | step {k l : Head} {n : Nat} (hk : Treads h k) (hn : k.Passes n)
      (hsource : l.source = k.source) (hpos : l.pos = k.pos + n) : Treads h l

theorem Treads.skip (hk : h.Treads k) (hn : k.Passes n) : h.Treads (k.skip n) :=
  .step hk hn rfl hn.pos_skip

theorem Treads.trans (hk : h.Treads k) (hl : k.Treads l) : h.Treads l := by
  induction hl with
  | refl => exact hk
  | step hl hn hsource hpos ih => exact .step ih hn hsource hpos

theorem Treads.reaches (hk : h.Treads k) : h.Reaches k := by
  induction hk with
  | refl => exact Reaches.refl h
  | @step k l n hk hn hsource hpos ih =>
      have heq : l = k.skip n := ext hsource (hpos.trans hn.pos_skip.symm)
      exact ih.trans (heq ▸ reaches_skip k n)

/-! ## Boundaries -/

/-- `k` is a later head on a character boundary. -/
def Meets (h k : Head) : Prop := h.Treads k ∧ Utf8.IsText k.rest

theorem meets_refl (hh : Utf8.IsText h.rest) : h.Meets h := ⟨.refl, hh⟩

theorem Meets.reaches (hk : h.Meets k) : h.Reaches k := hk.1.reaches

theorem Meets.trans (hk : h.Meets k) (hl : k.Meets l) : h.Meets l :=
  ⟨hk.1.trans hl.1, hl.2⟩

theorem Reaches.pos_le (hk : h.Reaches k) : h.pos ≤ k.pos := by
  obtain ⟨n, rfl⟩ := hk
  exact pos_le_pos_skip h n

theorem Takes.reaches {w : List UInt8} (hw : h.Takes w k) : h.Reaches k :=
  ⟨w.length, hw.eq_skip⟩

/-- Behind a text that was taken from a text there is a text. -/
theorem Takes.isText_rest {w : List UInt8} (hw : h.Takes w k) (htext : Utf8.IsText w)
    (hh : Utf8.IsText h.rest) : Utf8.IsText k.rest := by
  rw [hw.rest_eq] at hh
  exact hh.of_append htext

theorem Passes.meets (hn : h.Passes n) (htext : Utf8.IsText (h.skip n).rest) :
    h.Meets (h.skip n) :=
  ⟨.skip .refl hn, htext⟩

/-- A step up to a place where a character begins leads to a character boundary. -/
theorem Passes.meets_of_startsChar (hn : h.Passes n) (hstart : Utf8.StartsChar (h.skip n).rest)
    (hh : Utf8.IsText h.rest) : h.Meets (h.skip n) := by
  rw [← List.take_append_drop n h.rest] at hh
  exact hn.meets (hh.split hstart).2

theorem meets_skipWhile {p : UInt8 → Bool} (hp : ∀ b, p b = true → b.toNat < 0x80)
    (hh : Utf8.IsText h.rest) : h.Meets (h.skipWhile p) :=
  (Passes.run p).meets
    ((takes_skipWhile h p).isText_rest (Utf8.isText_of_run hp (run_takeWhile _ _)) hh)

theorem isText_word (h : Head) : Utf8.IsText h.word :=
  Utf8.isText_of_run (fun _ => toNat_lt_of_isWord) (run_takeWhile isWord h.rest)

/-- The text of the word in front of a head has the bytes of that word. -/
theorem bytes_takeWord (h : Head) : Utf8.bytes h.takeWord.1 = h.word :=
  Utf8.bytes_text h.isText_word

theorem meets_skipBlanks (hh : Utf8.IsText h.rest) : h.Meets h.skipBlanks :=
  meets_skipWhile (fun _ => toNat_lt_of_isBlank) hh

theorem meets_of_eat? {b : UInt8} (hb : b.toNat < 0x80) (he : h.eat? b = some k)
    (hh : Utf8.IsText h.rest) : h.Meets k := by
  have htakes := eat?_eq_some_iff.1 he
  have hpeek : h.peek? = some b := by
    rw [peek?, htakes.rest_eq]
    rfl
  have htext := htakes.isText_rest (Utf8.isText_of_ascii (by simpa using hb)) hh
  rw [htakes.eq_skip] at htext ⊢
  exact (Passes.byte hpeek).meets htext

theorem meets_of_keyword? {keyword : String} (hk : h.keyword? keyword = some k)
    (hh : Utf8.IsText h.rest) : h.Meets k := by
  have htakes := (keyword?_eq_some_iff.1 hk).1
  have htext := htakes.isText_rest (Utf8.isText_bytes keyword) hh
  rw [htakes.eq_skip] at htext ⊢
  exact (Passes.keyword hk).meets htext

/-- A reader that starts at `h` may end like this: at a character boundary, and
with a fault, if there is one, that lies at a character boundary too. -/
def Lands {α : Type} (h : Head) (result : Except Fault α × Head) : Prop :=
  h.Meets result.2 ∧ ∀ e, result.1 = .error e → ∃ k, h.Meets k ∧ e.offset = k.pos

variable {α β : Type}

theorem Meets.lands_ok (hk : h.Meets k) (a : α) : h.Lands (.ok a, k) := ⟨hk, by simp⟩

theorem Meets.lands_error (hk : h.Meets k) (hl : h.Meets l) (cause : Cause) :
    h.Lands ((.error ⟨l.pos, cause⟩ : Except Fault α), k) := by
  refine ⟨hk, fun e he => ⟨l, hl, ?_⟩⟩
  rw [← Except.error.inj he]

theorem Meets.lands {result : Except Fault α × Head} (hk : h.Meets k) (hr : k.Lands result) :
    h.Lands result := by
  refine ⟨hk.trans hr.1, fun e he => ?_⟩
  obtain ⟨l, hl, hoffset⟩ := hr.2 e he
  exact ⟨l, hk.trans hl, hoffset⟩

theorem Lands.mapFault {e f : Fault} (hr : h.Lands ((.error e : Except Fault α), k))
    (hf : f.offset = e.offset) : h.Lands ((.error f : Except Fault β), k) := by
  obtain ⟨l, hl, hoffset⟩ := hr.2 e rfl
  refine ⟨hr.1, fun e' he => ⟨l, hl, ?_⟩⟩
  rw [← Except.error.inj he, hf, hoffset]

/-- A fault lands where it lands, whatever value was expected. -/
theorem Lands.recast {e : Fault} (hr : h.Lands ((.error e : Except Fault α), k)) :
    h.Lands ((.error e : Except Fault β), k) :=
  hr.mapFault rfl

end Head

namespace Reading

variable {α β : Type}

/-- From a character boundary the reader comes to a character boundary, whether
it succeeds or fails. -/
def KeepsText (r : Reading α) : Prop := ∀ h : Head, Utf8.IsText h.rest → h.Lands (r h)

theorem KeepsText.lands {r : Reading α} (hr : KeepsText r) {h : Head}
    {result : Except Fault α × Head} (hh : Utf8.IsText h.rest) (hx : r h = result) :
    h.Lands result :=
  hx ▸ hr h hh

theorem keepsText_pure (a : α) : KeepsText (pure a : Reading α) :=
  fun _ hh => (Head.meets_refl hh).lands_ok a

theorem KeepsText.bind {r : Reading α} {f : α → Reading β} (hr : KeepsText r)
    (hf : ∀ a, KeepsText (f a)) : KeepsText (r >>= f) := by
  intro h hh
  rw [bind_apply]
  split
  · rename_i a k hk
    have hmeets := (hr.lands hh hk).1
    exact hmeets.lands (hf a k hmeets.2)
  · rename_i e k hk
    exact (hr.lands hh hk).recast

theorem keepsText_fail (cause : Cause) : KeepsText (fail cause : Reading α) :=
  fun _ hh => (Head.meets_refl hh).lands_error (Head.meets_refl hh) cause

theorem keepsText_skipBlanks : KeepsText skipBlanks :=
  fun _ hh => (Head.meets_skipBlanks hh).lands_ok ()

theorem keepsText_expect {b : UInt8} (hb : b.toNat < 0x80) (cause : Cause) :
    KeepsText (expect b cause) := by
  intro h hh
  unfold expect
  split
  · rename_i k hk
    exact (Head.meets_of_eat? hb hk hh).lands_ok ()
  · exact (Head.meets_refl hh).lands_error (Head.meets_refl hh) cause

theorem KeepsText.mapFault {r : Reading α} (hr : KeepsText r) {f : Fault → Fault}
    (hf : ∀ e, (f e).offset = e.offset) : KeepsText (r.mapFault f) := by
  intro h hh
  unfold Reading.mapFault
  split
  · rename_i a k hk
    exact hr.lands hh hk
  · rename_i e k hk
    exact (hr.lands hh hk).mapFault (hf e)

end Reading

namespace Grammar

theorem ExponentForm.isText {e : Exponent} (he : ExponentForm e) : Utf8.IsText e.bytes := by
  have hmark : Utf8.IsText [e.mark] := by
    refine Utf8.isText_of_ascii (List.forall_mem_singleton.2 ?_)
    rcases he.mark with h | h
    · rw [h]
      decide
    · rw [h]
      decide
  have hsign : Utf8.IsText e.sign.toList :=
    Utf8.isText_of_ascii fun b hb => toNat_lt_of_isSign (he.sign b (Option.mem_toList.1 hb))
  exact hmark.append (hsign.append (Utf8.isText_of_run (fun _ => toNat_lt_of_isDigit) he.digits))

theorem LiteralForm.isText {l : FloatLiteral} (hl : LiteralForm l) : Utf8.IsText l.bytes := by
  have hsign : Utf8.IsText l.sign.toList :=
    Utf8.isText_of_ascii fun b hb => toNat_lt_of_isSign (hl.sign b (Option.mem_toList.1 hb))
  have hwhole := Utf8.isText_of_run (fun _ => toNat_lt_of_isDigit) hl.whole
  have hfraction : Utf8.IsText ((l.fraction.map (point :: ·)).getD []) := by
    cases hf : l.fraction with
    | none => exact Utf8.isText_nil
    | some ds =>
        have hpoint : Utf8.IsText [point] :=
          Utf8.isText_of_ascii (List.forall_mem_singleton.2 (by decide))
        exact hpoint.append
          (Utf8.isText_of_run (fun _ => toNat_lt_of_isDigit) (hl.fraction ds hf))
  have hexponent : Utf8.IsText ((l.exponent.map Exponent.bytes).getD []) := by
    cases he : l.exponent with
    | none => exact Utf8.isText_nil
    | some e => exact (hl.exponent e he).isText
  exact ((hsign.append hwhole).append hfraction).append hexponent

end Grammar

namespace Value

open Reading

variable {α : Type}

theorem keepsText_float : KeepsText float := by
  intro h hh
  unfold float
  split
  · rename_i l hl
    obtain ⟨hform, rest, hrest⟩ := FloatLiteral.take?_sound hl
    have htext := (Head.takes_skip hrest).isText_rest hform.isText hh
    exact ((Head.Passes.float hl).meets htext).lands_ok _
  · exact (Head.meets_refl hh).lands_error (Head.meets_refl hh) _

/-- The body of a string ends in front of a quote or at the end, so it is a text
by itself. -/
theorem stringBody_spec {quote : UInt8} (hquote : quote.toNat < 0x80) {h : Head}
    (hh : Utf8.IsText h.rest) :
    Utf8.IsText (h.rest.takeWhile (· != quote)) ∧ h.Meets (h.skipWhile (· != quote)) := by
  have htakes := Head.takes_skipWhile h (· != quote)
  have hstart : Utf8.StartsChar (h.skipWhile (· != quote)).rest := by
    refine Utf8.startsChar_of_stops (fun b hb => ?_) (Head.stops_rest_skipWhile h (· != quote))
    obtain rfl : b = quote := by simpa using hb
    exact hquote
  refine ⟨?_, (Head.Passes.run _).meets_of_startsChar hstart hh⟩
  rw [htakes.rest_eq] at hh
  exact (hh.split hstart).1

theorem keepsText_stringBody {quote : UInt8} (hquote : quote.toNat < 0x80) :
    KeepsText (stringBody quote) := by
  intro h hh
  have hbody : h.Meets (h.skip (h.rest.takeWhile (· != quote)).length) :=
    (stringBody_spec hquote hh).2
  unfold stringBody
  simp only
  split
  · rename_i l hl
    exact (hbody.trans (Head.meets_of_eat? hquote hl hbody.2)).lands_ok _
  · exact hbody.lands_error hbody _

theorem keepsText_string : KeepsText string := by
  intro h hh
  unfold string
  split
  · rename_i b hb
    split
    · rename_i hquote
      have hascii := toNat_lt_of_isQuote hquote
      have heat : h.eat? b = some (h.skip 1) := if_pos hb
      have hmeets := Head.meets_of_eat? hascii heat hh
      exact hmeets.lands (keepsText_stringBody hascii _ hmeets.2)
    · exact (Head.meets_refl hh).lands_error (Head.meets_refl hh) _
  · exact (Head.meets_refl hh).lands_error (Head.meets_refl hh) _

theorem keepsText_boundedString (max : Option Nat) : KeepsText (boundedString max) := by
  intro h hh
  unfold boundedString
  split
  · rename_i e k hk
    exact keepsText_string.lands hh hk
  · rename_i s k hk
    have hmeets := (keepsText_string.lands hh hk).1
    split
    · exact hmeets.lands_ok s
    · split
      · exact hmeets.lands_ok s
      · exact hmeets.lands_error (Head.meets_refl hh) _

theorem offset_asComponent (index : Nat) (kind : TupleKind) (f : Fault) :
    (asComponent index kind f).offset = f.offset := by
  unfold asComponent
  split <;> rfl

theorem keepsText_separator (index : Nat) : KeepsText (separator index) := by
  unfold separator
  split
  · exact keepsText_pure ()
  · exact keepsText_skipBlanks.bind fun _ => keepsText_expect (by decide) _

theorem keepsText_components (kind : TupleKind) {component : Reading α}
    (hc : KeepsText component) (index n : Nat) :
    KeepsText (components kind component index n) := by
  induction n generalizing index with
  | zero => exact keepsText_pure []
  | succ n ih =>
      refine (keepsText_separator index).bind fun _ => ?_
      refine keepsText_skipBlanks.bind fun _ => ?_
      refine (hc.mapFault (offset_asComponent index kind)).bind fun a => ?_
      exact (ih (index + 1)).bind fun as => keepsText_pure _

theorem keepsText_tuple (kind : TupleKind) {component : Reading α} (hc : KeepsText component)
    (n : Nat) : KeepsText (tuple kind component n) := by
  refine (keepsText_expect (by decide) _).bind fun _ => ?_
  refine (keepsText_components kind hc 1 n).bind fun as => ?_
  refine keepsText_skipBlanks.bind fun _ => ?_
  exact (keepsText_expect (by decide) _).bind fun _ => keepsText_pure as

theorem keepsText_afterName (name : String) {value : Reading α} (hv : KeepsText value) :
    KeepsText (afterName name value) :=
  keepsText_skipBlanks.bind fun _ =>
    (keepsText_expect (by decide) _).bind fun _ => keepsText_skipBlanks.bind fun _ => hv

theorem keepsText_argument (name : String) {value : Reading α} (hv : KeepsText value) :
    KeepsText (argument name value) := by
  intro h hh
  unfold argument
  split
  · exact (Head.meets_refl hh).lands_ok none
  · rename_i k hk
    have hmeets := Head.meets_of_keyword? hk hh
    split
    · rename_i a l hl
      exact (hmeets.trans ((keepsText_afterName name hv).lands hmeets.2 hl).1).lands_ok _
    · rename_i e l hl
      exact hmeets.lands ((keepsText_afterName name hv).lands hmeets.2 hl).recast

theorem meets_of_firstKeyword? {h k : Head} {a : α} {spellings : List (String × α)}
    (hk : firstKeyword? h spellings = some (a, k)) (hh : Utf8.IsText h.rest) : h.Meets k := by
  induction spellings with
  | nil => cases hk
  | cons s more ih =>
      obtain ⟨keyword, b⟩ := s
      unfold firstKeyword? at hk
      split at hk
      · rename_i l hl
        cases hk
        exact Head.meets_of_keyword? hl hh
      · exact ih hk

end Value

namespace ArgumentList

open Reading

theorem keepsText_begin : KeepsText begin :=
  (keepsText_expect (by decide) _).bind fun _ => keepsText_pure _

theorem keepsText_next (list : ArgumentList) : KeepsText list.next := by
  intro h hh
  have hblanks := Head.meets_skipBlanks hh
  cases list with
  | closed => exact keepsText_pure _ h hh
  | ongoing first flagged =>
      cases flagged with
      | true => exact (Head.meets_refl hh).lands_error (Head.meets_refl hh) _
      | false =>
          rw [next_ongoing]
          split
          · rename_i k hk
            exact (hblanks.trans (Head.meets_of_eat? (by decide) hk hblanks.2)).lands_ok _
          · split
            · exact hblanks.lands_ok _
            · split
              · rename_i k hk
                have hcomma := hblanks.trans (Head.meets_of_eat? (by decide) hk hblanks.2)
                exact (hcomma.trans (Head.meets_skipBlanks hcomma.2)).lands_ok _
              · exact hblanks.lands_error hblanks _

theorem keepsText_finish (list : ArgumentList) : KeepsText list.finish := by
  cases list with
  | closed => exact keepsText_pure ()
  | ongoing first flagged =>
      cases flagged with
      | true => exact keepsText_fail _
      | false => exact keepsText_pure ()

end ArgumentList

namespace Metadata

open Reading

theorem keepsText_readHint (components : Nat) : KeepsText (readHint components) := by
  unfold readHint
  split
  · exact Value.keepsText_float.bind fun _ => keepsText_pure _
  · exact Value.keepsText_tuple _ Value.keepsText_float _

theorem keepsText_readHints (components : Nat) (metadata : Metadata) :
    KeepsText (readHints components metadata) := by
  intro h hh
  have hmean := Value.keepsText_argument "mean" (keepsText_readHint components)
  have hscale := Value.keepsText_argument "scale" (keepsText_readHint components)
  unfold readHints
  split
  · rename_i e k hk
    exact (hmean.lands hh hk).recast
  · rename_i values k hk
    exact (hmean.lands hh hk).1.lands_ok _
  · rename_i k hk
    have hmeets := (hmean.lands hh hk).1
    split
    · rename_i e l hl
      exact hmeets.lands (hscale.lands hmeets.2 hl).recast
    · rename_i values l hl
      exact (hmeets.trans (hscale.lands hmeets.2 hl).1).lands_ok _
    · rename_i l hl
      exact (hmeets.trans (hscale.lands hmeets.2 hl).1).lands_ok _

theorem keepsText_readFile (metadata : Metadata) : KeepsText (readFile metadata) := by
  intro h hh
  have hfile := Value.keepsText_argument "file"
    (Value.keepsText_boundedString (some Limits.pathBytes))
  unfold readFile Value.stringArgument
  split
  · rename_i e k hk
    exact (hfile.lands hh hk).recast
  · rename_i path k hk
    exact (hfile.lands hh hk).1.lands_ok _
  · rename_i k hk
    exact (hfile.lands hh hk).1.lands_ok _

theorem keepsText_readArgument (type : UniformType) (metadata : Metadata) :
    KeepsText (readArgument type metadata) := by
  unfold readArgument
  split
  · exact keepsText_readHints _ metadata
  · split
    · exact keepsText_readFile metadata
    · exact keepsText_pure none

theorem keepsText_readArguments (type : UniformType) (list : ArgumentList)
    (metadata : Metadata) : KeepsText (readArguments type list metadata) := by
  intro h hh
  fun_induction readArguments type list metadata h with
  | case1 list metadata h e k hn => exact ((ArgumentList.keepsText_next list).lands hh hn).recast
  | case2 list metadata h later k hn e l hf =>
      have hk := ((ArgumentList.keepsText_next list).lands hh hn).1
      exact hk.lands ((ArgumentList.keepsText_finish later).lands hk.2 hf).recast
  | case3 list metadata h later k hn u l hf =>
      have hk := ((ArgumentList.keepsText_next list).lands hh hn).1
      exact (hk.trans ((ArgumentList.keepsText_finish later).lands hk.2 hf).1).lands_ok _
  | case4 list metadata h later k hn e l hr =>
      have hk := ((ArgumentList.keepsText_next list).lands hh hn).1
      exact hk.lands ((keepsText_readArgument type metadata).lands hk.2 hr).recast
  | case5 list metadata h later k hn updated l hr ih =>
      have hk := ((ArgumentList.keepsText_next list).lands hh hn).1
      have hl := hk.trans ((keepsText_readArgument type metadata).lands hk.2 hr).1
      exact hl.lands (ih hl.2)
  | case6 list metadata h later k hn l hr ih =>
      have hk := ((ArgumentList.keepsText_next list).lands hh hn).1
      have hl := hk.trans ((keepsText_readArgument type metadata).lands hk.2 hr).1
      exact hl.lands (ih hl.2)

end Metadata

namespace Declaration

open Reading

theorem keepsText_readMetadata (type : UniformType) : KeepsText (readMetadata type) := by
  intro h hh
  unfold readMetadata Metadata.read
  split
  · split
    · rename_i e k hk
      exact (ArgumentList.keepsText_begin.lands hh hk).recast
    · rename_i list k hk
      have hmeets := (ArgumentList.keepsText_begin.lands hh hk).1
      exact hmeets.lands (Metadata.keepsText_readArguments type list .default k hmeets.2)
  · exact (Head.meets_refl hh).lands_ok _

theorem keepsText_readType : KeepsText readType := by
  intro h hh
  unfold readType
  split
  · rename_i t k hk
    exact (Value.meets_of_firstKeyword? hk hh).lands_ok t
  · exact (Head.meets_refl hh).lands_error (Head.meets_refl hh) _

theorem keepsText_readName : KeepsText readName := by
  intro h hh
  have hword : h.Meets h.takeWord.2 := Head.meets_skipWhile (fun _ => toNat_lt_of_isWord) hh
  unfold readName
  simp only
  split
  · exact hword.lands_error (Head.meets_refl hh) _
  · split
    · exact hword.lands_error (Head.meets_refl hh) _
    · split
      · exact hword.lands_error (Head.meets_refl hh) _
      · exact hword.lands_ok _

theorem keepsText_read (declared : Nat) : KeepsText (read declared) := by
  unfold read
  split
  · exact keepsText_fail _
  · refine keepsText_skipBlanks.bind fun _ => ?_
    refine keepsText_readType.bind fun type => ?_
    refine keepsText_skipBlanks.bind fun _ => ?_
    refine keepsText_readName.bind fun name => ?_
    refine keepsText_skipBlanks.bind fun _ => ?_
    refine (keepsText_readMetadata type).bind fun metadata => ?_
    refine keepsText_skipBlanks.bind fun _ => ?_
    exact (keepsText_expect (by decide) _).bind fun _ => keepsText_pure _

end Declaration

end UniformBlock
