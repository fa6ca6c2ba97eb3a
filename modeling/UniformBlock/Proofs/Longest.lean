import Mathlib.Computability.Language
import UniformBlock.Proofs.Literal

/-!
# The longest literal

The literals are two regular languages. With `D` for a digit they are

    integer := [+-]? D+
    float   := [+-]? (D+ | D+ . D* | . D+) ([eE] [+-]? D+)?

and they are stated by these expressions, apart from the parts that a literal is
taken in (`mem_floatLiterals_iff`). A literal is taken stage by stage, and no stage
is ever taken back. That what is taken is nevertheless the longest word of the
language in front (`Longest`) rests on `exists_take?_append`: whatever literal stands
in front, one at least as long is found. The parts of the given literal grow into
what follows it, and each part that has grown stops the one before.
-/

namespace UniformBlock

open Ascii
open scoped Computability

namespace Grammar

/-! ## The languages -/

/-- The words of one byte of a class. -/
def oneOf (p : UInt8 → Bool) : Language UInt8 := {w | ∃ b, p b = true ∧ w = [b]}

def isMark (b : UInt8) : Bool := b == lowerE || b == upperE

def signs : Language UInt8 := 1 + oneOf isSign

def digits : Language UInt8 := oneOf isDigit * (oneOf isDigit)∗

def integerLiterals : Language UInt8 := signs * digits

/-- Digits with an optional point, where at least one side of the point has a
digit. -/
def mantissas : Language UInt8 :=
  digits + digits * oneOf (· == point) * (oneOf isDigit)∗ + oneOf (· == point) * digits

def exponents : Language UInt8 := 1 + oneOf isMark * signs * digits

def floatLiterals : Language UInt8 := signs * mantissas * exponents

/-- `w` is the longest word of a language in front of some bytes. -/
structure Longest (L : Language UInt8) (bs w : List UInt8) : Prop where
  mem : w ∈ L
  front : w <+: bs
  length_le : ∀ v ∈ L, v <+: bs → v.length ≤ w.length

theorem Longest.eq {L : Language UInt8} {bs v w : List UInt8} (hv : Longest L bs v)
    (hw : Longest L bs w) : v = w := by
  have hvw : v.length ≤ w.length := hw.length_le v hv.mem hv.front
  have hwv : w.length ≤ v.length := hv.length_le w hw.mem hw.front
  exact (List.prefix_of_prefix_length_le hv.front hw.front hvw).eq_of_length
    (Nat.le_antisymm hvw hwv)

/-- What is taken off the front is the longest word of a language; nothing is taken
only where no word stands in front. -/
structure TakesLongest {β : Type} (L : Language UInt8) (take? : List UInt8 → Option β)
    (bytes : β → List UInt8) : Prop where
  longest : ∀ bs l, take? bs = some l → Longest L bs (bytes l)
  none_iff : ∀ bs, take? bs = none ↔ ∀ w ∈ L, ¬ w <+: bs

/-- It is enough that words are taken, and for any word in front one at least as
long. -/
theorem takesLongest_of {β : Type} {L : Language UInt8} {take? : List UInt8 → Option β}
    {bytes : β → List UInt8}
    (hsound : ∀ bs l, take? bs = some l → bytes l ∈ L ∧ bytes l <+: bs)
    (hcomplete : ∀ w ∈ L, ∀ rest,
      ∃ l, take? (w ++ rest) = some l ∧ w.length ≤ (bytes l).length) :
    TakesLongest L take? bytes := by
  refine ⟨fun bs l hl => ⟨(hsound bs l hl).1, (hsound bs l hl).2, ?_⟩, fun bs => ⟨?_, ?_⟩⟩
  · rintro v hv ⟨rest, rfl⟩
    obtain ⟨l', hl', hle⟩ := hcomplete v hv rest
    rw [hl] at hl'
    obtain rfl := Option.some.inj hl'
    exact hle
  · rintro hnone w hw ⟨rest, rfl⟩
    obtain ⟨l, hl, -⟩ := hcomplete w hw rest
    rw [hnone] at hl
    cases hl
  · intro hno
    cases hl : take? bs with
    | none => rfl
    | some l => exact absurd (hsound bs l hl).2 (hno _ (hsound bs l hl).1)

variable {p : UInt8 → Bool} {w : List UInt8}

theorem mem_oneOf_iff : w ∈ oneOf p ↔ ∃ b, p b = true ∧ w = [b] := Iff.rfl

theorem mem_kstar_oneOf_iff : w ∈ (oneOf p)∗ ↔ Run p w := by
  rw [Language.mem_kstar]
  constructor
  · rintro ⟨ws, rfl, hws⟩ b hb
    obtain ⟨v, hv, hbv⟩ := List.mem_flatten.1 hb
    obtain ⟨a, ha, rfl⟩ := hws v hv
    rwa [List.mem_singleton.1 hbv]
  · intro hw
    refine ⟨w.map ([·]), (List.flatMap_singleton' w).symm, ?_⟩
    intro v hv
    obtain ⟨b, hb, rfl⟩ := List.mem_map.1 hv
    exact ⟨b, hw b hb, rfl⟩

theorem mem_digits_iff : w ∈ digits ↔ Run isDigit w ∧ w ≠ [] := by
  rw [digits, Language.mem_mul]
  constructor
  · rintro ⟨-, ⟨b, hb, rfl⟩, ds, hds, rfl⟩
    exact ⟨run_cons.2 ⟨hb, mem_kstar_oneOf_iff.1 hds⟩, by simp⟩
  · rintro ⟨hw, hne⟩
    obtain ⟨b, ds, rfl⟩ := List.exists_cons_of_ne_nil hne
    obtain ⟨hb, hds⟩ := run_cons.1 hw
    exact ⟨[b], ⟨b, hb, rfl⟩, ds, mem_kstar_oneOf_iff.2 hds, rfl⟩

theorem mem_signs_iff :
    w ∈ signs ↔ ∃ sign : Option UInt8, (∀ b ∈ sign, isSign b = true) ∧ sign.toList = w := by
  rw [signs, Language.mem_add, Language.mem_one]
  constructor
  · rintro (rfl | ⟨b, hb, rfl⟩)
    · exact ⟨none, by simp, rfl⟩
    · exact ⟨some b, by simpa using hb, rfl⟩
  · rintro ⟨sign, hsign, rfl⟩
    cases sign with
    | none => exact .inl rfl
    | some b => exact .inr ⟨b, hsign b rfl, rfl⟩

theorem mem_integerLiterals_iff :
    w ∈ integerLiterals ↔ ∃ l : IntegerLiteral, IntegerForm l ∧ l.bytes = w := by
  rw [integerLiterals, Language.mem_mul]
  constructor
  · rintro ⟨u, hu, ds, hds, rfl⟩
    obtain ⟨sign, hsign, rfl⟩ := mem_signs_iff.1 hu
    obtain ⟨hrun, hne⟩ := mem_digits_iff.1 hds
    exact ⟨⟨sign, ds⟩, ⟨hsign, hrun, hne⟩, rfl⟩
  · rintro ⟨l, hl, rfl⟩
    exact ⟨l.sign.toList, mem_signs_iff.2 ⟨l.sign, hl.sign, rfl⟩, l.digits,
      mem_digits_iff.2 ⟨hl.digits, hl.digits_ne_nil⟩, rfl⟩

/-- The mantissas are the digits and the optional fraction of a literal. -/
theorem mem_mantissas_iff :
    w ∈ mantissas ↔ ∃ (whole : List UInt8) (fraction : Option (List UInt8)),
      Run isDigit whole ∧ (∀ ds ∈ fraction, Run isDigit ds) ∧
      (whole ≠ [] ∨ ∃ ds, fraction = some ds ∧ ds ≠ []) ∧
      whole ++ (fraction.map (point :: ·)).getD [] = w := by
  simp only [mantissas, Language.mem_add, Language.mem_mul, mem_oneOf_iff]
  constructor
  · rintro ((hw | ⟨-, ⟨ds, hds, -, ⟨b, hb, rfl⟩, rfl⟩, fs, hfs, rfl⟩) |
      ⟨-, ⟨b, hb, rfl⟩, fs, hfs, rfl⟩)
    · obtain ⟨hrun, hne⟩ := mem_digits_iff.1 hw
      exact ⟨w, none, hrun, by simp, .inl hne, List.append_nil w⟩
    · obtain ⟨hrun, hne⟩ := mem_digits_iff.1 hds
      refine ⟨ds, some fs, hrun, ?_, .inl hne, ?_⟩
      · simpa using mem_kstar_oneOf_iff.1 hfs
      · simp [beq_iff_eq.1 hb]
    · obtain ⟨hrun, hne⟩ := mem_digits_iff.1 hfs
      exact ⟨[], some fs, run_nil, by simpa using hrun, .inr ⟨fs, rfl, hne⟩,
        by simp [beq_iff_eq.1 hb]⟩
  · rintro ⟨whole, fraction, hwhole, hfraction, hmantissa, rfl⟩
    cases fraction with
    | none =>
        have hne : whole ≠ [] := hmantissa.resolve_right (by simp)
        exact .inl (.inl (by simpa using mem_digits_iff.2 ⟨hwhole, hne⟩))
    | some fs =>
        have hfs : Run isDigit fs := hfraction fs rfl
        by_cases hne : whole = []
        · subst hne
          obtain ⟨ds, hds, hne⟩ := hmantissa.resolve_left (by simp)
          obtain rfl := Option.some.inj hds
          exact .inr ⟨[point], ⟨point, by simp, rfl⟩, fs, mem_digits_iff.2 ⟨hfs, hne⟩, rfl⟩
        · exact .inl (.inr ⟨whole ++ [point], ⟨whole, mem_digits_iff.2 ⟨hwhole, hne⟩, [point],
            ⟨point, by simp, rfl⟩, rfl⟩, fs, mem_kstar_oneOf_iff.2 hfs, by simp⟩)

theorem mem_exponents_iff :
    w ∈ exponents ↔ ∃ e : Option Exponent, (∀ x ∈ e, ExponentForm x) ∧
      (e.map Exponent.bytes).getD [] = w := by
  simp only [exponents, Language.mem_add, Language.mem_one, Language.mem_mul, mem_oneOf_iff]
  constructor
  · rintro (rfl | ⟨-, ⟨-, ⟨b, hb, rfl⟩, u, hu, rfl⟩, ds, hds, rfl⟩)
    · exact ⟨none, by simp, rfl⟩
    · obtain ⟨sign, hsign, rfl⟩ := mem_signs_iff.1 hu
      obtain ⟨hrun, hne⟩ := mem_digits_iff.1 hds
      have hmark : b = lowerE ∨ b = upperE := by simpa [isMark] using hb
      refine ⟨some ⟨b, sign, ds⟩, ?_, by simp [Exponent.bytes]⟩
      rintro x ⟨⟩
      exact ⟨hmark, hsign, hrun, hne⟩
  · rintro ⟨e, he, rfl⟩
    cases e with
    | none => exact .inl rfl
    | some x =>
        obtain ⟨hmark, hsign, hrun, hne⟩ := he x rfl
        have hfront : x.mark :: x.sign.toList ∈ oneOf isMark * signs :=
          ⟨[x.mark], ⟨x.mark, by simpa [isMark] using hmark, rfl⟩, x.sign.toList,
            mem_signs_iff.2 ⟨x.sign, hsign, rfl⟩, rfl⟩
        exact .inr ⟨_, hfront, x.digits, mem_digits_iff.2 ⟨hrun, hne⟩, rfl⟩

/-- The words of the language are the literals of the right form. -/
theorem mem_floatLiterals_iff :
    w ∈ floatLiterals ↔ ∃ l : FloatLiteral, LiteralForm l ∧ l.bytes = w := by
  simp only [floatLiterals, Language.mem_mul]
  constructor
  · rintro ⟨-, ⟨u, hu, v, hv, rfl⟩, e, he, rfl⟩
    obtain ⟨sign, hsign, rfl⟩ := mem_signs_iff.1 hu
    obtain ⟨whole, fraction, hwhole, hfraction, hmantissa, rfl⟩ := mem_mantissas_iff.1 hv
    obtain ⟨exponent, hexponent, rfl⟩ := mem_exponents_iff.1 he
    exact ⟨⟨sign, whole, fraction, exponent⟩,
      ⟨hsign, hwhole, hfraction, hmantissa, hexponent⟩, by simp [FloatLiteral.bytes]⟩
  · rintro ⟨l, hl, rfl⟩
    refine ⟨_, ⟨_, mem_signs_iff.2 ⟨l.sign, hl.sign, rfl⟩, _,
      mem_mantissas_iff.2 ⟨l.whole, l.fraction, hl.whole, hl.fraction, hl.mantissa, rfl⟩, rfl⟩, _,
      mem_exponents_iff.2 ⟨l.exponent, hl.exponent, rfl⟩, ?_⟩
    simp [FloatLiteral.bytes]

end Grammar

open Grammar

/-! ## Nothing longer stands in front -/

/-- An exponent is found with all digits that follow it. -/
theorem Exponent.exists_take?_append {e : Exponent} (he : ExponentForm e) (rest : List UInt8) :
    ∃ x, take? (e.bytes ++ rest) = some x ∧ e.bytes.length ≤ x.bytes.length := by
  have hgrown : ExponentForm { e with digits := e.digits ++ rest.takeWhile isDigit } :=
    ⟨he.mark, he.sign, run_append he.digits (run_takeWhile _ _), by simp [he.digits_ne_nil]⟩
  have hrest : e.bytes ++ rest = { e with digits := e.digits ++ rest.takeWhile isDigit }.bytes ++
      rest.drop (rest.takeWhile isDigit).length := by
    simp [bytes, takeWhile_append_drop]
  exact ⟨_, hrest ▸ take?_complete hgrown (stops_drop_takeWhile isDigit rest), by simp [bytes]⟩

namespace FloatLiteral

variable {m : FloatLiteral}

/-- A literal without an exponent grows into the digits and the fraction that follow
it, until nothing extends these. -/
theorem exists_grown (hm : LiteralForm m) (hexponent : m.exponent = none) (rest : List UInt8) :
    ∃ l tail, LiteralForm l ∧ l.exponent = none ∧ m.bytes ++ rest = l.bytes ++ tail ∧
      m.length ≤ l.length ∧ Stops isDigit tail ∧ (l.fraction = none → Stops (· == point) tail) := by
  obtain ⟨sign, whole, fraction, exponent⟩ := m
  obtain rfl : exponent = none := hexponent
  obtain ⟨hsign, hwhole, hfraction, hmantissa, -⟩ := hm
  simp only at hsign hwhole hfraction hmantissa
  have hrest := takeWhile_append_drop isDigit rest
  have hdigits := run_takeWhile isDigit rest
  have hstop := stops_drop_takeWhile isDigit rest
  generalize rest.takeWhile isDigit = ds at hrest hdigits hstop
  generalize rest.drop ds.length = tail at hrest hstop
  subst hrest
  cases fraction with
  | some fs =>
      refine ⟨⟨sign, whole, some (fs ++ ds), none⟩, tail, ⟨hsign, hwhole, ?_, ?_, by simp⟩, rfl,
        by simp [bytes], by simp [length, bytes], hstop, by simp⟩
      · simpa using run_append (hfraction fs rfl) hdigits
      · rcases hmantissa with h | ⟨fs', h, hne⟩
        · exact .inl h
        · obtain rfl := Option.some.inj h
          exact .inr ⟨_, rfl, by simp [hne]⟩
  | none =>
      have hne : whole ++ ds ≠ [] := by simp [hmantissa.resolve_right (by simp)]
      by_cases hpoint : tail.head? = some point
      · -- the digits are followed by a point, which begins a fraction
        obtain ⟨after, rfl⟩ := List.head?_eq_some_iff.1 hpoint
        refine ⟨⟨sign, whole ++ ds, some (after.takeWhile isDigit), none⟩,
          after.drop (after.takeWhile isDigit).length,
          ⟨hsign, run_append hwhole hdigits, by simpa using run_takeWhile _ _, .inl hne, by simp⟩,
          rfl, ?_, ?_, stops_drop_takeWhile _ _, by simp⟩
        · simp [bytes, takeWhile_append_drop]
        · simp [length, bytes]
      · refine ⟨⟨sign, whole ++ ds, none, none⟩, tail,
          ⟨hsign, run_append hwhole hdigits, by simp, .inl hne, by simp⟩, rfl, ?_, ?_, hstop, ?_⟩
        · simp [bytes]
        · simp [length, bytes]
        · intro _ b hb
          rw [beq_eq_false_iff_ne]
          rintro rfl
          exact hpoint hb

/-- Where a literal stands in front, one at least as long is found. -/
theorem exists_take?_append (hm : LiteralForm m) (rest : List UInt8) :
    ∃ l, take? (m.bytes ++ rest) = some l ∧ m.length ≤ l.length := by
  cases he : m.exponent with
  | some e =>
      have hform := hm.exponent e he
      have hfront : LiteralForm { m with exponent := none } :=
        ⟨hm.sign, hm.whole, hm.fraction, hm.mantissa, by simp⟩
      have hmark : isDigit e.mark = false ∧ (e.mark == point) = false := by
        rcases hform.mark with h | h <;> rw [h] <;> decide
      obtain ⟨x, hx, hle⟩ := Exponent.exists_take?_append hform rest
      refine ⟨{ m with exponent := some x }, ?_, ?_⟩
      · rw [bytes_eq_append, he, List.append_assoc, ← hx]
        exact take?_append hfront rfl (stops_cons.2 hmark.1) fun _ => stops_cons.2 hmark.2
      · rw [length, bytes_eq_append m, he, length, bytes_eq_append { m with exponent := some x }]
        simpa using hle
  | none =>
      obtain ⟨l, tail, hl, hnone, happend, hle, hdigit, hpoint⟩ := exists_grown hm he rest
      refine ⟨_, happend ▸ take?_append hl hnone hdigit hpoint, hle.trans ?_⟩
      rw [length, length, bytes_eq_append { l with exponent := Exponent.take? tail }]
      simp [← hnone]

theorem takesLongest : TakesLongest floatLiterals take? bytes := by
  refine takesLongest_of (fun bs l hl => ?_) (fun w hw rest => ?_)
  · obtain ⟨hform, rest, rfl⟩ := take?_sound hl
    exact ⟨mem_floatLiterals_iff.2 ⟨l, hform, rfl⟩, List.prefix_append _ _⟩
  · obtain ⟨m, hm, rfl⟩ := mem_floatLiterals_iff.1 hw
    exact exists_take?_append hm rest

end FloatLiteral

theorem IntegerLiteral.takesLongest : TakesLongest integerLiterals take? bytes := by
  refine takesLongest_of (fun bs l hl => ?_) (fun w hw rest => ?_)
  · obtain ⟨hform, rest, rfl⟩ := take?_sound hl
    exact ⟨mem_integerLiterals_iff.2 ⟨l, hform, rfl⟩, List.prefix_append _ _⟩
  · obtain ⟨m, hm, rfl⟩ := mem_integerLiterals_iff.1 hw
    exact ⟨_, take?_append hm rest, by simp [bytes]⟩

/-! ## Numbers -/

/-- A byte that occurs in literals. -/
def isNumeric (b : UInt8) : Bool := isDigit b || isSign b || b == point || isMark b

/-- Among the words of such bytes, a parser accepts exactly the literals. -/
def AcceptsLiterals (parse? : List UInt8 → Option Single) : Prop :=
  ∀ w, Run isNumeric w → ((parse? w).isSome ↔ w ∈ floatLiterals)

theorem run_isNumeric {w : List UInt8} (hw : w ∈ floatLiterals) : Run isNumeric w := by
  have hdigit (b : UInt8) (hb : isDigit b = true) : isNumeric b = true := by simp [isNumeric, hb]
  have hsign (b : UInt8) (hb : isSign b = true) : isNumeric b = true := by simp [isNumeric, hb]
  obtain ⟨l, hl, rfl⟩ := mem_floatLiterals_iff.1 hw
  have hfraction : Run isNumeric ((l.fraction.map (point :: ·)).getD []) := by
    cases hf : l.fraction with
    | none => exact run_nil
    | some ds => exact run_cons.2 ⟨by decide, fun b hb => hdigit b (hl.fraction ds hf b hb)⟩
  have hexponent : Run isNumeric ((l.exponent.map Exponent.bytes).getD []) := by
    cases he : l.exponent with
    | none => exact run_nil
    | some e =>
        obtain ⟨hmark, hs, hds, -⟩ := hl.exponent e he
        refine run_cons.2 ⟨by simp [isNumeric, isMark, hmark], run_append ?_ ?_⟩
        · exact fun b hb => hsign b (hs b (Option.mem_toList.1 hb))
        · exact fun b hb => hdigit b (hds b hb)
  refine run_append (run_append (run_append ?_ ?_) hfraction) hexponent
  · exact fun b hb => hsign b (hl.sign b (Option.mem_toList.1 hb))
  · exact fun b hb => hdigit b (hl.whole b hb)

/-- The number that a whole word denotes, if it is a literal. -/
def FloatLiteral.parse? (w : List UInt8) : Option Single :=
  match take? w with
  | some l => if l.bytes = w then some l.value else none
  | none => none

theorem FloatLiteral.parse?_bytes {l : FloatLiteral} (hl : LiteralForm l) :
    parse? l.bytes = some l.value := by
  have htake := take?_complete hl stops_nil
  rw [List.append_nil] at htake
  rw [parse?, htake]
  exact if_pos rfl

theorem acceptsLiterals_parse? : AcceptsLiterals FloatLiteral.parse? := by
  intro w _
  constructor
  · intro hw
    obtain ⟨x, hx⟩ := Option.isSome_iff_exists.1 hw
    unfold FloatLiteral.parse? at hx
    split at hx
    · rename_i l hl
      split at hx
      · rename_i heq
        exact heq ▸ (FloatLiteral.takesLongest.longest w l hl).mem
      · cases hx
    · cases hx
  · intro hw
    obtain ⟨l, hl, rfl⟩ := mem_floatLiterals_iff.1 hw
    rw [FloatLiteral.parse?_bytes hl]
    rfl

namespace Value

/-- Read a number in two steps: the bytes of a literal are cut off and handed to a
parser, which may refuse them. -/
def floatVia (parse? : List UInt8 → Option Single) : Reading Single := fun h =>
  match FloatLiteral.take? h.rest with
  | none => (.error ⟨h.pos, .notANumber⟩, h)
  | some l =>
    match parse? (h.rest.take l.length) with
    | some x => (.ok x, h.skip l.length)
    | none => (.error ⟨h.pos, .notANumber⟩, h)

/-- From the head `h` a reader takes the longest literal, with a value that belongs to
it, or stays where it is if there is none. -/
structure Munches (value : Single → List UInt8 → Prop) (r : Reading Single) (h : Head) :
    Prop where
  refuses : (∀ w ∈ floatLiterals, ¬ w <+: h.rest) → r h = (.error ⟨h.pos, .notANumber⟩, h)
  takes : (∃ w ∈ floatLiterals, w <+: h.rest) →
    ∃ w x k, Longest floatLiterals h.rest w ∧ value x w ∧ h.Takes w k ∧ r h = (.ok x, k)

variable {parse? : List UInt8 → Option Single} {h : Head}

/-- The bytes of a literal that was found are never refused. -/
theorem exists_parse?_eq (hparse : AcceptsLiterals parse?) {l : FloatLiteral}
    (hl : FloatLiteral.take? h.rest = some l) :
    h.rest.take l.length = l.bytes ∧ ∃ x, parse? l.bytes = some x := by
  have hlongest := FloatLiteral.takesLongest.longest h.rest l hl
  refine ⟨(List.prefix_iff_eq_take.1 hlongest.front).symm, ?_⟩
  exact Option.isSome_iff_exists.1 ((hparse _ (run_isNumeric hlongest.mem)).2 hlongest.mem)

theorem munches_floatVia (hparse : AcceptsLiterals parse?) (h : Head) :
    Munches (fun x w => parse? w = some x) (floatVia parse?) h where
  refuses hno := by rw [floatVia, (FloatLiteral.takesLongest.none_iff _).2 hno]
  takes := by
    rintro ⟨w, hw, hfront⟩
    cases hl : FloatLiteral.take? h.rest with
    | none => exact absurd hfront ((FloatLiteral.takesLongest.none_iff _).1 hl w hw)
    | some l =>
        have hlongest := FloatLiteral.takesLongest.longest h.rest l hl
        obtain ⟨hbytes, x, hx⟩ := exists_parse?_eq hparse hl
        obtain ⟨rest, hrest⟩ := hlongest.front
        refine ⟨l.bytes, x, _, hlongest, hx, Head.takes_skip hrest.symm, ?_⟩
        simp only [floatVia, hl, hbytes, hx]
        rfl

/-- Numbers are read in these two steps. -/
theorem float_eq_floatVia : float = floatVia FloatLiteral.parse? := by
  funext h
  rw [float, floatVia]
  cases hl : FloatLiteral.take? h.rest with
  | none => rfl
  | some l =>
      obtain ⟨hbytes, -⟩ := exists_parse?_eq acceptsLiterals_parse? hl
      simp only [hbytes, FloatLiteral.parse?_bytes (FloatLiteral.take?_sound hl).1]

theorem numberText_of_parse?_eq {x : Single} {w : List UInt8} (hw : w ∈ floatLiterals)
    (hx : FloatLiteral.parse? w = some x) : NumberText x w := by
  obtain ⟨l, hl, rfl⟩ := mem_floatLiterals_iff.1 hw
  rw [FloatLiteral.parse?_bytes hl] at hx
  exact ⟨l, hl, Option.some.inj hx, rfl⟩

/-- A number is the longest literal in front of the head, and a parser that accepts
exactly the literals never refuses it. -/
theorem munches_float (hparse : AcceptsLiterals parse?) (h : Head) :
    Munches NumberText float h ∧
      Munches (fun x w => parse? w = some x) (floatVia parse?) h ∧
      ∀ l, FloatLiteral.take? h.rest = some l → parse? (h.rest.take l.length) ≠ none := by
  have hown := munches_floatVia acceptsLiterals_parse? h
  refine ⟨⟨?_, ?_⟩, munches_floatVia hparse h, fun l hl => ?_⟩
  · rw [float_eq_floatVia]
    exact hown.refuses
  · intro hw
    obtain ⟨w, x, k, hlongest, hx, htakes, hr⟩ := hown.takes hw
    rw [float_eq_floatVia]
    exact ⟨w, x, k, hlongest, numberText_of_parse?_eq hlongest.mem hx, htakes, hr⟩
  · obtain ⟨hbytes, x, hx⟩ := exists_parse?_eq hparse hl
    rw [hbytes, hx]
    exact Option.some_ne_none x

/-- A point is part of the literal before it, but an exponent without digits is not. -/
theorem munches_dangling :
    AcceptsLiterals FloatLiteral.parse? ∧
      Munches NumberText float (Head.start (.ofString "+4.e-x")) ∧
      (float (Head.start (.ofString "+4.e-x"))).2.pos = 3 :=
  ⟨acceptsLiterals_parse?, (munches_float acceptsLiterals_parse? _).1, by decide +kernel⟩

end Value

end UniformBlock
