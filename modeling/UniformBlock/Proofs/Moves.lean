import UniformBlock.Proofs.Localisation

/-!
# Moves of the head

A `Move` is one operation on a head: one of its own operations, or a reader of a
value, of an argument, of a list or of a declaration. It leads somewhere whether
the operation succeeds or fails. Every move that begins on a character boundary
ends on one, not before its beginning and not behind the end of the source
(`Move.meets`).

Apart from keywords, which are texts themselves, the operations pass over
characters of more than one byte only in comments, in punctuation and in strings.
There they stop in front of a byte of the ASCII range or at the end of the source,
and neither lies inside a character.
-/

namespace UniformBlock

open Ascii Grammar Reading

theorem Ascii.toNat_lt_of_isNewline {b : UInt8} (hb : isNewline b = true) : b.toNat < 0x80 := by
  simp only [isNewline, Bool.or_eq_true, beq_iff_eq] at hb
  rcases hb with rfl | rfl <;> decide

namespace Head

variable {h k : Head}

/-! ## Comments, punctuation and words -/

/-- A run that only bytes of the ASCII range stop ends on a character boundary. -/
theorem meets_skipWhile_of_stop {p : UInt8 → Bool} (hp : ∀ b, p b = false → b.toNat < 0x80)
    (hh : Utf8.IsText h.rest) : h.Meets (h.skipWhile p) :=
  (Passes.run p).meets_of_startsChar
    (Utf8.startsChar_of_stops hp (stops_rest_skipWhile h p)) hh

theorem meets_of_skipComment? (hc : h.skipComment? = some k) (hh : Utf8.IsText h.rest) :
    h.Meets k := by
  by_cases hline : startsLine h.rest = true
  · rw [skipComment?, if_pos hline] at hc
    obtain rfl := Option.some.inj hc
    have hbody : h.Meets (h.skipWhile (!isNewline ·)) :=
      meets_skipWhile_of_stop (fun b hb => toNat_lt_of_isNewline (by simpa using hb)) hh
    exact hbody.trans (meets_skipWhile (fun _ => toNat_lt_of_isNewline) hbody.2)
  · by_cases hblock : startsBlock h.rest = true
    · have hk : h.skip (2 + blockLength 0 (h.rest.drop 2)) = k := by
        rw [skipComment?, if_neg hline, if_pos hblock] at hc
        exact Option.some.inj hc
      have htreads : h.Treads k := hk ▸ .skip .refl (.block hblock)
      obtain ⟨cs, hcs⟩ := startsBlock_iff.1 hblock
      rcases exists_endMark cs with hnone | ⟨body, rest, rfl, hbody⟩
      · obtain ⟨l, hl, hrest⟩ := exists_takes (hcs.trans (List.append_nil _).symm)
        have hl' : h.Takes (slash :: star :: (cs ++ [])) l := by rwa [List.append_nil]
        rw [skipComment?_of_block hl' hnone (.inr ⟨rfl, hrest⟩)] at hc
        obtain rfl := Option.some.inj hc
        exact ⟨htreads, hrest ▸ Utf8.isText_nil⟩
      · have hsplit : h.rest = (slash :: star :: (body ++ [star, slash])) ++ rest := by
          rw [hcs]
          simp
        obtain ⟨l, hl, rfl⟩ := exists_takes hsplit
        rw [skipComment?_of_block hl hbody (.inl rfl)] at hc
        obtain rfl := Option.some.inj hc
        exact ⟨htreads, (Piece.blockComment hbody).isText (hl.rest_eq ▸ hh)⟩
    · rw [skipComment?, if_neg hline, if_neg hblock] at hc
      cases hc

/-- Punctuation ends in front of a word, a comment or the end. -/
theorem startsChar_drop_punctuationLength (bs : List UInt8) :
    Utf8.StartsChar (bs.drop (punctuationLength 0 bs)) := by
  induction bs with
  | nil => exact Utf8.isText_nil.startsChar
  | cons b bs ih =>
      rw [punctuationLength]
      split
      · rename_i hstop
        rw [Bool.or_eq_true] at hstop
        rcases hstop with hword | hcomment
        · exact Utf8.startsChar_cons (toNat_lt_of_isWord hword)
        · have hslash : b = slash := by
            by_contra hne
            rw [startsComment_eq_false hne] at hcomment
            cases hcomment
          exact Utf8.startsChar_cons (by rw [hslash]; decide)
      · rw [punctuationLength_eq_add, Nat.zero_add, Nat.add_comm 1, List.drop_succ_cons]
        exact ih

theorem meets_skipPunctuation (hh : Utf8.IsText h.rest) : h.Meets h.skipPunctuation :=
  Passes.punctuation.meets_of_startsChar (startsChar_drop_punctuationLength h.rest) hh

theorem meets_takeWord (hh : Utf8.IsText h.rest) : h.Meets h.takeWord.2 :=
  meets_skipWhile (fun _ => toNat_lt_of_isWord) hh

theorem meets_of_skipGap? (hg : h.skipGap? = some k) (hh : Utf8.IsText h.rest) : h.Meets k := by
  unfold skipGap? at hg
  split at hg
  · rename_i later hc
    exact Option.some.inj hg ▸ meets_of_skipComment? hc hh
  · split at hg
    · exact Option.some.inj hg ▸ meets_skipBlanks hh
    · split at hg
      · cases hg
      · exact Option.some.inj hg ▸ meets_skipPunctuation hh

theorem meets_toWord (hh : Utf8.IsText h.rest) : h.Meets h.toWord := by
  fun_induction toWord h with
  | case1 h later hg ih =>
      have hlater := meets_of_skipGap? hg hh
      exact hlater.trans (ih hlater.2)
  | case2 h hg => exact meets_refl hh

end Head

/-! ## Values that no declaration has -/

theorem Grammar.IntegerForm.isText {l : IntegerLiteral} (hl : IntegerForm l) :
    Utf8.IsText l.bytes := by
  have hsign : Utf8.IsText l.sign.toList :=
    Utf8.isText_of_ascii fun b hb => toNat_lt_of_isSign (hl.sign b (Option.mem_toList.1 hb))
  exact hsign.append (Utf8.isText_of_run (fun _ => toNat_lt_of_isDigit) hl.digits)

namespace Value

variable {α : Type}

theorem keepsText_boolean : KeepsText boolean := by
  intro h hh
  unfold boolean
  split
  · rename_i b k hk
    exact (meets_of_firstKeyword? hk hh).lands_ok b
  · exact (Head.meets_refl hh).lands_error (Head.meets_refl hh) _

theorem keepsText_integer : KeepsText integer := by
  intro h hh
  have hself := Head.meets_refl hh
  unfold integer
  split
  · rename_i l hl
    obtain ⟨hform, rest, hrest⟩ := IntegerLiteral.take?_sound hl
    split
    · have htext := (Head.takes_skip hrest).isText_rest hform.isText hh
      exact ((Head.Passes.integer hl).meets htext).lands_ok _
    · exact hself.lands_error hself _
  · exact hself.lands_error hself _

theorem keepsText_angleUnit (x : Single) : KeepsText (angleUnit x) := by
  intro h hh
  unfold angleUnit
  split
  · rename_i k hk
    exact (Head.meets_of_keyword? hk hh).lands_ok _
  · split
    · rename_i k hk
      exact (Head.meets_of_keyword? hk hh).lands_ok _
    · exact (Head.meets_refl hh).lands_error (Head.meets_refl hh) _

theorem keepsText_angle : KeepsText angle :=
  keepsText_float.bind fun x => keepsText_skipBlanks.bind fun _ => keepsText_angleUnit x

/-- The readers of values. -/
inductive IsValue : {α : Type} → Reading α → Prop
  | boolean : IsValue boolean
  | integer : IsValue integer
  | float : IsValue float
  | angle : IsValue angle
  | string : IsValue string
  | integers (n : Nat) : IsValue (integers n)
  | floats (n : Nat) : IsValue (floats n)
  | angles (n : Nat) : IsValue (angles n)

theorem IsValue.keepsText {value : Reading α} (hv : IsValue value) : KeepsText value := by
  cases hv with
  | boolean => exact keepsText_boolean
  | integer => exact keepsText_integer
  | float => exact keepsText_float
  | angle => exact keepsText_angle
  | string => exact keepsText_string
  | integers n => exact keepsText_tuple _ keepsText_integer n
  | floats n => exact keepsText_tuple _ keepsText_float n
  | angles n => exact keepsText_tuple _ keepsText_angle n

end Value

/-! ## All moves -/

namespace Head

/-- One operation on a head, and the head that it leaves. -/
inductive Move (h : Head) : Head → Prop
  | blanks : Move h h.skipBlanks
  | comment : Move h (h.skipComment?.getD h)
  | punctuation : Move h h.skipPunctuation
  | word : Move h h.takeWord.2
  | byte {b : UInt8} (hb : b.toNat < 0x80) : Move h ((h.eat? b).getD h)
  | keyword (keyword : String) : Move h ((h.keyword? keyword).getD h)
  | toWord : Move h h.toWord
  | value {α : Type} {value : Reading α} (hv : Value.IsValue value) : Move h (value h).2
  | listBegin : Move h (ArgumentList.begin h).2
  | listNext (list : ArgumentList) : Move h (list.next h).2
  | argument (name : String) {α : Type} {value : Reading α} (hv : Value.IsValue value) :
      Move h (Value.argument name value h).2
  | stringArgument (name : String) (max : Option Nat) :
      Move h (Value.stringArgument name max h).2
  | declaration (declared : Nat) : Move h (Declaration.read declared h).2

variable {h k : Head} {s : String}

/-- An operation that finds nothing to skip leaves the head where it is. -/
theorem meets_getD {later? : Option Head} (hh : Utf8.IsText h.rest)
    (hlater : ∀ k, later? = some k → h.Meets k) : h.Meets (later?.getD h) := by
  cases hk : later? with
  | none => exact meets_refl hh
  | some k => exact hlater k hk

theorem Move.meets (hm : h.Move k) (hh : Utf8.IsText h.rest) : h.Meets k := by
  cases hm with
  | blanks => exact meets_skipBlanks hh
  | comment => exact meets_getD hh fun k hk => meets_of_skipComment? hk hh
  | punctuation => exact meets_skipPunctuation hh
  | word => exact meets_takeWord hh
  | byte hb => exact meets_getD hh fun k hk => meets_of_eat? hb hk hh
  | keyword => exact meets_getD hh fun k hk => meets_of_keyword? hk hh
  | toWord => exact meets_toWord hh
  | value hv => exact (hv.keepsText h hh).1
  | listBegin => exact (ArgumentList.keepsText_begin h hh).1
  | listNext list => exact (ArgumentList.keepsText_next list h hh).1
  | argument name hv => exact (Value.keepsText_argument name hv.keepsText h hh).1
  | stringArgument name max =>
      exact (Value.keepsText_argument name (Value.keepsText_boundedString max) h hh).1
  | declaration declared => exact (Declaration.keepsText_read declared h hh).1

/-- What is left between two characters is a text. -/
theorem isText_rest_of_isValid (hsource : h.source = .ofString s)
    (hpos : (⟨h.pos⟩ : String.Pos.Raw).IsValid s) : Utf8.IsText h.rest := by
  obtain ⟨t, u, rfl, hp⟩ := String.Pos.Raw.isValid_iff_exists_append.1 hpos
  rw [String.Pos.Raw.ext_iff, String.byteIdx_rawEndPos, ← Utf8.length_bytes] at hp
  have hrest : h.rest = Utf8.bytes u := by
    rw [h.rest_eq, hsource]
    change (Utf8.bytes (t ++ u)).drop h.pos = _
    rw [show h.pos = (Utf8.bytes t).length from hp, Utf8.bytes_append, List.drop_left]
  exact hrest ▸ Utf8.isText_bytes u

/-- A move between two places of a text. -/
theorem Move.boundary (hm : h.Move k) (hsource : h.source = .ofString s)
    (hpos : (⟨h.pos⟩ : String.Pos.Raw).IsValid s) :
    h.Treads k ∧ k.source = .ofString s ∧ h.pos ≤ k.pos ∧ k.pos ≤ s.utf8ByteSize ∧
      (⟨k.pos⟩ : String.Pos.Raw).IsValid s := by
  obtain ⟨htreads, htext⟩ := hm.meets (isText_rest_of_isValid hsource hpos)
  have hk : k.source = .ofString s := htreads.reaches.source_eq.trans hsource
  refine ⟨htreads, hk, htreads.reaches.pos_le, ?_, isValid_pos hk htext⟩
  have hle := k.pos_le
  rw [hk] at hle
  rw [← Utf8.length_bytes]
  exact hle

end Head

end UniformBlock
