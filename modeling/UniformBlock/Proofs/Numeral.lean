import UniformBlock.Json.Reader

/-!
# Numerals are read as they were written

A numeral is well-formed if each of its parts consists of digits and its whole part
has no zero in front of another digit. The reader takes a well-formed numeral off
any text in which it cannot go on (`takeNumeral?_render`). Numbers are written as
well-formed numerals: natural numbers because their digits are those of the
library, numbers of the 32-bit format because the shortest decimal of a number
other than zero is not zero (`Shortest.digits_significand_pos`).

Words are read back from their numerals (`toWord?_ofNat`).
-/

namespace UniformBlock

/-! ## Digits -/

/-- Digits, at least one of them. -/
structure Digits (ds : List Char) : Prop where
  ne_nil : ds ≠ []
  digit : ∀ c ∈ ds, isDecimalDigit c = true

theorem digits_zero : Digits ['0'] := ⟨by simp, List.forall_mem_singleton.2 rfl⟩

theorem digits_decimalDigits (n : Nat) : Digits (decimalDigits n) where
  ne_nil := Nat.toDigits_ne_nil
  digit _ hc := Nat.isDigit_of_mem_toDigits (by decide) (by decide) hc

theorem head?_decimalDigits_ne {n : Nat} (hn : 0 < n) : (decimalDigits n).head? ≠ some '0' := by
  induction n using Nat.strongRecOn with
  | ind n ih =>
      rw [decimalDigits, Nat.toDigits_eq_if (by decide)]
      split
      · rename_i hlt
        have hsmall : ∀ d < 10, 0 < d → [Nat.digitChar d].head? ≠ some '0' := by decide
        exact hsmall n hlt hn
      · rw [List.head?_append, Option.or_of_isSome (by simp [Nat.toDigits_ne_nil])]
        exact ih (n / 10) (by omega) (by omega)

theorem decimalValue_decimalDigits (n : Nat) : decimalValue (decimalDigits n) = n := by
  have hvalue := Nat.ofDigitChars_ten_toDigits (n := n)
  rwa [Nat.ofDigitChars_eq_foldl] at hvalue

namespace Json

variable {ds rest : List Char}

theorem takeDigits?_append (hds : Digits ds)
    (hrest : ∀ c ∈ rest.head?, isDecimalDigit c = false) :
    takeDigits? (ds ++ rest) = some (ds, rest) := by
  have htake : (ds ++ rest).takeWhile isDecimalDigit = ds := by
    rw [List.takeWhile_append_of_pos hds.digit]
    cases rest with
    | nil => simp
    | cons c cs => simp [hrest c rfl]
  have hdrop : (ds ++ rest).dropWhile isDecimalDigit = rest := by
    rw [List.dropWhile_append_of_pos hds.digit]
    cases rest with
    | nil => rfl
    | cons c cs => simp [hrest c rfl]
  rw [takeDigits?, htake, hdrop]
  cases ds with
  | nil => exact absurd rfl hds.ne_nil
  | cons c cs => rfl

/-- What follows a numeral: nothing that could be part of it. -/
def EndsNumeral (rest : List Char) : Prop :=
  ∀ c ∈ rest.head?, isDecimalDigit c = false ∧ c ≠ '.' ∧ c ≠ 'e' ∧ c ≠ 'E'

namespace Numeral

/-- The parts of the numeral consist of digits, and the whole part has no needless
zero. -/
structure WellFormed (n : Numeral) : Prop where
  whole : Digits n.whole
  zero : n.whole.head? = some '0' → n.whole.length = 1
  fraction : ∀ ds ∈ n.fraction, Digits ds
  exponent : ∀ e ∈ n.exponent, Digits e.2

/-- The written form of a sign. -/
def signText (negative : Bool) : List Char := if negative then ['-'] else []

/-- The written form of an optional fraction. -/
def fractionText : Option (List Char) → List Char
  | none => []
  | some digits => '.' :: digits

/-- The written form of an optional exponent. -/
def exponentText : Option (Bool × List Char) → List Char
  | none => []
  | some (negative, digits) => 'e' :: (if negative then '-' else '+') :: digits

theorem render_append (n : Numeral) (rest : List Char) :
    n.render ++ rest = signText n.negative ++ (n.whole ++
      (fractionText n.fraction ++ (exponentText n.exponent ++ rest))) := by
  obtain ⟨negative, whole, fraction, exponent⟩ := n
  rw [← List.append_assoc, ← List.append_assoc, ← List.append_assoc]
  cases fraction <;> cases exponent <;> rfl

end Numeral

/-! ## Reading a numeral -/

open Numeral

theorem takeMinus_signText (negative : Bool) (hds : Digits ds) :
    takeMinus (signText negative ++ (ds ++ rest)) = (negative, ds ++ rest) := by
  cases negative with
  | true => rfl
  | false =>
      obtain ⟨c, cs, rfl⟩ := List.exists_cons_of_ne_nil hds.ne_nil
      have hc : c ≠ '-' := by
        rintro rfl
        exact absurd (hds.digit '-' (by simp)) (by decide)
      simp [signText, takeMinus, hc]

theorem takeWhole?_append (hds : Digits ds) (hzero : ds.head? = some '0' → ds.length = 1)
    (hrest : ∀ c ∈ rest.head?, isDecimalDigit c = false) :
    takeWhole? (ds ++ rest) = some (ds, rest) := by
  simp only [takeWhole?, takeDigits?_append hds hrest]
  exact if_neg fun h => h.2 (hzero h.1)

theorem takeFraction?_fractionText {fraction : Option (List Char)}
    (hfraction : ∀ ds ∈ fraction, Digits ds)
    (hrest : ∀ c ∈ rest.head?, isDecimalDigit c = false ∧ c ≠ '.') :
    takeFraction? (fractionText fraction ++ rest) = some (fraction, rest) := by
  cases fraction with
  | some ds =>
      have hdigits := takeDigits?_append (hfraction ds rfl) fun c hc => (hrest c hc).1
      simp [fractionText, takeFraction?, hdigits]
  | none =>
      cases rest with
      | nil => rfl
      | cons c cs => simp [fractionText, takeFraction?, (hrest c rfl).2]

theorem takeExponent?_exponentText {exponent : Option (Bool × List Char)}
    (hexponent : ∀ e ∈ exponent, Digits e.2) (hrest : EndsNumeral rest) :
    takeExponent? (exponentText exponent ++ rest) = some (exponent, rest) := by
  cases exponent with
  | some e =>
      obtain ⟨negative, ds⟩ := e
      have hdigits : takeDigits? (ds ++ rest) = some (ds, rest) :=
        takeDigits?_append (hexponent _ rfl) fun c hc => (hrest c hc).1
      cases negative <;> simp [exponentText, takeExponent?, takeExponentSign, hdigits]
  | none =>
      cases rest with
      | nil => rfl
      | cons c cs =>
          obtain ⟨-, -, he, hE⟩ := hrest c rfl
          simp [exponentText, takeExponent?, he, hE]

/-- A well-formed numeral is read as it was written. -/
theorem takeNumeral?_render {n : Numeral} (hn : n.WellFormed) (hrest : EndsNumeral rest) :
    takeNumeral? (n.render ++ rest) = some (n, rest) := by
  have hexponent : ∀ c ∈ (exponentText n.exponent ++ rest).head?,
      isDecimalDigit c = false ∧ c ≠ '.' := by
    cases n.exponent with
    | none => exact fun c hc => ⟨(hrest c hc).1, (hrest c hc).2.1⟩
    | some e =>
        rintro c ⟨rfl⟩
        decide
  have hfraction : ∀ c ∈ (fractionText n.fraction ++ (exponentText n.exponent ++ rest)).head?,
      isDecimalDigit c = false := by
    cases n.fraction with
    | none => exact fun c hc => (hexponent c hc).1
    | some ds =>
        rintro c ⟨rfl⟩
        decide
  rw [render_append, takeNumeral?, takeMinus_signText _ hn.whole]
  simp only [takeWhole?_append hn.whole hn.zero hfraction,
    takeFraction?_fractionText hn.fraction hexponent,
    takeExponent?_exponentText hn.exponent hrest, Option.bind_eq_bind, Option.bind_some]
  rfl

end Json

/-! ## Writing numbers -/

namespace Shortest

theorem stripZeros_pos {fuel n : Nat} (hn : 0 < n) : 0 < stripZeros fuel n := by
  induction fuel generalizing n with
  | zero => exact hn
  | succ fuel ih =>
      rw [stripZeros]
      split
      · exact ih (by omega)
      · exact hn

/-- A decimal that reads back as a number other than zero is not zero. -/
theorem search_significand_pos {code num den fuel n : Nat} {first : Int} (hcode : code ≠ 0) :
    0 < (search code num den first fuel n).significand := by
  induction fuel generalizing n with
  | zero => exact Nat.one_pos
  | succ fuel ih =>
      simp only [search]
      split
      · rename_i found hfound
        refine stripZeros_pos (Nat.pos_of_ne_zero ?_)
        rintro rfl
        have hback : 0 = code := by simpa [readsBack] using List.find?_some hfound
        exact hcode hback.symm
      · exact ih

theorem digits_significand_pos {x : Single} (hx : x.code ≠ 0) : 0 < (digits x).significand :=
  search_significand_pos hx

end Shortest

namespace Json

namespace Numeral

theorem wellFormed_ofNat (n : Nat) : (ofNat n).WellFormed where
  whole := digits_decimalDigits n
  zero hzero := by
    cases n with
    | zero => rfl
    | succ n => exact absurd hzero (head?_decimalDigits_ne n.succ_pos)
  fraction := by simp [ofNat]
  exponent := by simp [ofNat]

theorem isDecimalDigit_of_mem_zeros {n : Nat} {c : Char} (hc : c ∈ zeros n) :
    isDecimalDigit c = true := by
  rw [List.eq_of_mem_replicate hc]
  rfl

/-- Digits without a zero in front are written as a well-formed numeral wherever
the point stands. -/
theorem wellFormed_ofDecimal (negative : Bool) {digits : List Char} (hdigits : Digits digits)
    (hhead : digits.head? ≠ some '0') (exponent : Int) :
    (ofDecimal negative digits exponent).WellFormed := by
  obtain ⟨d, ds, rfl⟩ := List.exists_cons_of_ne_nil hdigits.ne_nil
  have hdrop : ∀ k, (d :: ds).drop k ≠ [] → Digits ((d :: ds).drop k) := fun k hne =>
    ⟨hne, fun c hc => hdigits.digit c (List.mem_of_mem_drop hc)⟩
  unfold ofDecimal
  split
  · -- the whole part begins with the first digit
    refine ⟨⟨by simp, fun c hc => ?_⟩, fun hzero => absurd hzero ?_, ?_, by simp⟩
    · rcases List.mem_append.1 hc with hc | hc
      · exact hdigits.digit c (List.mem_of_mem_take hc)
      · exact isDecimalDigit_of_mem_zeros hc
    · simpa using hhead
    · rintro _ ⟨rfl⟩
      split
      · exact digits_zero
      · exact hdrop _ ‹_›
  · split
    · -- the whole part is a zero alone
      refine ⟨digits_zero, fun _ => rfl, ?_, by simp⟩
      rintro _ ⟨rfl⟩
      refine ⟨by simp, fun c hc => ?_⟩
      rcases List.mem_append.1 hc with hc | hc
      · exact isDecimalDigit_of_mem_zeros hc
      · exact hdigits.digit c hc
    · -- the whole part is the first digit
      refine ⟨⟨by simp, fun c hc => ?_⟩, fun _ => rfl, fun fraction hfraction => ?_, ?_⟩
      · exact hdigits.digit c (List.mem_of_mem_take hc)
      · simp only at hfraction
        split at hfraction
        · simp at hfraction
        · obtain rfl := Option.some.inj hfraction
          exact hdrop 1 ‹_›
      · rintro _ ⟨rfl⟩
        exact digits_decimalDigits _

theorem wellFormed_ofSingle (x : Single) : (ofSingle x).WellFormed := by
  unfold ofSingle
  split
  · exact ⟨digits_zero, fun _ => rfl, by simp [digits_zero], by simp⟩
  · rename_i hcode
    exact wellFormed_ofDecimal _ (digits_decimalDigits _)
      (head?_decimalDigits_ne (Shortest.digits_significand_pos hcode)) _

/-- Words are read back. -/
theorem toWord?_ofNat (n : UInt32) : (ofNat n.toNat).toWord? = some n := by
  have hlt : n.toNat < UInt32.size := n.toNat_lt
  simp [toWord?, ofNat, isInteger, decimalValue_decimalDigits, hlt]

end Numeral

end Json

end UniformBlock
