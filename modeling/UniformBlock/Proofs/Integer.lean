import Mathlib.Data.Nat.Digits.Defs
import UniformBlock.Proofs.Longest
import UniformBlock.Proofs.Utf8

/-!
# Integers at the limits of their width

An integer literal may have any number of digits, leading zeros included, and the
integer that it denotes is exact whatever its length (`Denotes`, positional notation
in base ten). It is read if and only if it is one of the integers of 32 bits; beyond
them the literal is refused as a whole, and the head stays in front of it.

The decimal text of a 32-bit integer denotes that integer (`DecimalText.denotes`), and
what follows cannot lengthen it unless it begins with a digit, so it is read back.
-/

namespace UniformBlock

open Ascii Grammar

namespace Grammar

/-! ## What a literal denotes -/

/-- The number that digits write down, the most significant one first. -/
def decimal (ds : List UInt8) : Nat := Nat.ofDigits 10 (ds.map digitValue).reverse

/-- The integer that a word of an optional sign and digits writes down. -/
inductive Denotes : List UInt8 → Int → Prop
  | unsigned {ds : List UInt8} (hds : Run isDigit ds) (hne : ds ≠ []) : Denotes ds (decimal ds)
  | plus {ds : List UInt8} (hds : Run isDigit ds) (hne : ds ≠ []) :
      Denotes (plus :: ds) (decimal ds)
  | minus {ds : List UInt8} (hds : Run isDigit ds) (hne : ds ≠ []) :
      Denotes (minus :: ds) (-decimal ds)

def InWidth (m : Int) : Prop := -2 ^ 31 ≤ m ∧ m ≤ 2 ^ 31 - 1

/-- The decimal text of a 32-bit integer. -/
def DecimalText (m : Int) (w : List UInt8) : Prop :=
  ∃ n : Int32, n.toInt = m ∧ Utf8.bytes (toString n) = w

theorem inWidth_iff {m : Int} : InWidth m ↔ IntegerLiteral.inRange m = true := by
  simp only [InWidth, IntegerLiteral.inRange, Bool.and_eq_true, decide_eq_true_eq]
  omega

theorem digitsValue_eq_decimal (ds : List UInt8) : digitsValue ds = decimal ds := by
  rw [decimal, Nat.ofDigits_eq_foldr, List.foldr_reverse, List.foldl_map, digitsValue]
  simp only [Nat.cast_id, Nat.add_comm]

theorem denotes_iff {w : List UInt8} {m : Int} :
    Denotes w m ↔ ∃ l : IntegerLiteral, IntegerForm l ∧ l.bytes = w ∧ l.value = m := by
  constructor
  · intro hw
    cases hw with
    | unsigned hds hne =>
        exact ⟨⟨none, w⟩, ⟨by simp, hds, hne⟩, rfl, congrArg _ (digitsValue_eq_decimal _)⟩
    | @plus ds hds hne =>
        exact ⟨⟨some plus, ds⟩, ⟨by simp [isSign], hds, hne⟩, rfl,
          congrArg _ (digitsValue_eq_decimal _)⟩
    | @minus ds hds hne =>
        exact ⟨⟨some minus, ds⟩, ⟨by simp [isSign], hds, hne⟩, rfl,
          congrArg _ (digitsValue_eq_decimal _)⟩
  · rintro ⟨⟨sign, ds⟩, ⟨hsign, hds, hne⟩, rfl, rfl⟩
    rw [IntegerLiteral.value, digitsValue_eq_decimal]
    cases sign with
    | none => exact .unsigned hds hne
    | some b =>
        have hb : b = plus ∨ b = minus := by simpa [isSign] using hsign b rfl
        rcases hb with rfl | rfl
        · exact .plus hds hne
        · exact .minus hds hne

/-! ## Decimal texts -/

theorem utf8EncodeChar_of_isDigit {c : Char} (hc : c.isDigit = true) :
    String.utf8EncodeChar c = [UInt8.ofNat c.toNat] ∧ isDigit (UInt8.ofNat c.toNat) = true ∧
      digitValue (UInt8.ofNat c.toNat) = c.toNat - '0'.toNat := by
  have hbounds : 0x30 ≤ c.toNat ∧ c.toNat ≤ 0x39 := by
    simpa [Char.isDigit, UInt32.le_iff_toNat_le] using hc
  have hbyte : (UInt8.ofNat c.toNat).toNat = c.toNat := Utf8.toNat_ofNat_byte (by omega)
  refine ⟨?_, by rw [isDigit_iff, hbyte]; exact hbounds, by rw [digitValue, hbyte]; rfl⟩
  have hsmall : c.val.toNat ≤ 0x7F := by
    have : c.val.toNat = c.toNat := rfl
    omega
  rw [String.utf8EncodeChar, if_pos hsmall]
  rfl

theorem bytes_repr (n : Nat) :
    Run isDigit (Utf8.bytes n.repr) ∧ Utf8.bytes n.repr ≠ [] ∧
      decimal (Utf8.bytes n.repr) = n := by
  have hdigits (c : Char) (hc : c ∈ Nat.toDigits 10 n) :=
    utf8EncodeChar_of_isDigit (Nat.isDigit_of_mem_toDigits (by decide) (by decide) hc)
  have hbytes : Utf8.bytes n.repr = (Nat.toDigits 10 n).map (UInt8.ofNat ·.toNat) := by
    rw [Utf8.bytes, Nat.toList_repr, Utf8.encode, ← List.flatMap_pure_eq_map]
    exact List.flatMap_congr fun c hc => (hdigits c hc).1
  refine ⟨?_, ?_, ?_⟩
  · rw [hbytes]
    intro b hb
    obtain ⟨c, hc, rfl⟩ := List.mem_map.1 hb
    exact (hdigits c hc).2.1
  · simp [hbytes, Nat.toDigits_ne_nil]
  · have hvalue := Nat.ofDigitChars_ten_toDigits (n := n)
    rw [Nat.ofDigitChars_eq_foldl] at hvalue
    rw [← digitsValue_eq_decimal, hbytes, digitsValue, List.foldl_map]
    refine Eq.trans (List.foldl_ext _ _ _ fun acc c hc => ?_) hvalue
    rw [(hdigits c hc).2.2]

theorem DecimalText.denotes {m : Int} {w : List UInt8} (hw : DecimalText m w) :
    Denotes w m ∧ InWidth m := by
  obtain ⟨n, rfl, rfl⟩ := hw
  refine ⟨?_, n.le_toInt, Int.le_sub_one_of_lt n.toInt_lt⟩
  have htext : toString n = n.toInt.repr := rfl
  rw [htext]
  cases n.toInt with
  | ofNat a =>
      obtain ⟨hrun, hne, hvalue⟩ := bytes_repr a
      have h := Denotes.unsigned hrun hne
      rw [hvalue] at h
      exact h
  | negSucc a =>
      obtain ⟨hrun, hne, hvalue⟩ := bytes_repr (a + 1)
      have h := Denotes.minus hrun hne
      rw [hvalue] at h
      rw [Int.repr, Utf8.bytes_append]
      exact h

end Grammar

namespace IntegerLiteral

theorem eq_of_bytes_eq {l m : IntegerLiteral} (hl : IntegerForm l) (hm : IntegerForm m)
    (hbytes : l.bytes = m.bytes) : l = m := by
  have htake := take?_complete hl stops_nil
  rw [hbytes, take?_complete hm stops_nil] at htake
  exact (Option.some.inj htake).symm

end IntegerLiteral

namespace Value

/-! ## Integers -/

variable {h k : Head} {m : Int} {w : List UInt8}

/-- The literal that is taken is the one that denotes the integer. -/
theorem exists_take?_of_longest (hw : Longest integerLiterals h.rest w) (hm : Denotes w m) :
    ∃ l, IntegerLiteral.take? h.rest = some l ∧ l.bytes = w ∧ l.value = m := by
  cases hl : IntegerLiteral.take? h.rest with
  | none => exact absurd hw.front ((IntegerLiteral.takesLongest.none_iff _).1 hl w hw.mem)
  | some l =>
      obtain ⟨l', hl', rfl, rfl⟩ := denotes_iff.1 hm
      have hbytes := (IntegerLiteral.takesLongest.longest _ l hl).eq hw
      obtain rfl := IntegerLiteral.eq_of_bytes_eq (IntegerLiteral.take?_sound hl).1 hl' hbytes
      exact ⟨l, rfl, rfl, rfl⟩

theorem integer_of_inWidth (hw : Longest integerLiterals h.rest w) (hm : Denotes w m)
    (hwidth : InWidth m) : integer h = (.ok m, h.skip w.length) := by
  obtain ⟨l, hl, rfl, rfl⟩ := exists_take?_of_longest hw hm
  simp only [integer, hl, if_pos (inWidth_iff.1 hwidth)]
  rfl

theorem integer_of_not_inWidth (hw : Longest integerLiterals h.rest w) (hm : Denotes w m)
    (hwidth : ¬ InWidth m) : integer h = (.error ⟨h.pos, .notAnInteger⟩, h) := by
  obtain ⟨l, hl, rfl, rfl⟩ := exists_take?_of_longest hw hm
  simp only [integer, hl, if_neg (mt inWidth_iff.2 hwidth)]

theorem integer_sound (hr : integer h = (.ok m, k)) : ∃ w, Denotes w m ∧ h.Takes w k := by
  unfold integer at hr
  split at hr
  · rename_i l hl
    split at hr
    · obtain ⟨hm, rfl⟩ := Prod.mk.inj hr
      obtain ⟨hform, rest, hrest⟩ := IntegerLiteral.take?_sound hl
      exact ⟨l.bytes, denotes_iff.2 ⟨l, hform, rfl, Except.ok.inj hm⟩, Head.takes_skip hrest⟩
    · simp at hr
  · simp at hr

/-- The decimal text of an integer is read back if no digit follows it. -/
theorem integer_complete (hm : DecimalText m w) (hw : h.Takes w k) (hstop : Stops isDigit k.rest) :
    integer h = (.ok m, k) := by
  obtain ⟨hdenotes, hwidth⟩ := hm.denotes
  obtain ⟨l, hl, rfl, rfl⟩ := denotes_iff.1 hdenotes
  have htake : IntegerLiteral.take? h.rest = some l := by
    rw [hw.rest_eq, IntegerLiteral.take?_complete hl hstop]
  rw [hw.eq_skip]
  exact integer_of_inWidth (IntegerLiteral.takesLongest.longest _ l htake) hdenotes hwidth

/-- From the head `h` an integer is read as the longest literal in front, if that
denotes an integer of 32 bits; else the head stays where it is. -/
structure ReadsInWidth (h : Head) : Prop where
  absent : (∀ w ∈ integerLiterals, ¬ w <+: h.rest) →
    integer h = (.error ⟨h.pos, .notAnInteger⟩, h)
  present : (∃ w ∈ integerLiterals, w <+: h.rest) →
    ∃ w m, Longest integerLiterals h.rest w ∧ Denotes w m
  within : ∀ w m, Longest integerLiterals h.rest w → Denotes w m →
    ((∃ k, h.Takes w k ∧ integer h = (.ok m, k)) ↔ InWidth m)
  beyond : ∀ w m, Longest integerLiterals h.rest w → Denotes w m → ¬ InWidth m →
    integer h = (.error ⟨h.pos, .notAnInteger⟩, h)
  rendered : ∀ (n : Int32) (rest : List UInt8), h.rest = Utf8.bytes (toString n) ++ rest →
    Stops isDigit rest →
      ∃ k, h.Takes (Utf8.bytes (toString n)) k ∧ integer h = (.ok n.toInt, k)

/-- An integer is exact at the limits of its width, wherever it is read. -/
theorem readsInWidth_integer (h : Head) : ReadsInWidth h where
  absent hno := by rw [integer, (IntegerLiteral.takesLongest.none_iff _).2 hno]
  present := by
    rintro ⟨w, hw, hfront⟩
    cases hl : IntegerLiteral.take? h.rest with
    | none => exact absurd hfront ((IntegerLiteral.takesLongest.none_iff _).1 hl w hw)
    | some l =>
        have hform := (IntegerLiteral.take?_sound hl).1
        exact ⟨l.bytes, l.value, IntegerLiteral.takesLongest.longest _ l hl,
          denotes_iff.2 ⟨l, hform, rfl, rfl⟩⟩
  within w m hw hm := by
    constructor
    · rintro ⟨k, -, hr⟩
      by_contra hwidth
      rw [integer_of_not_inWidth hw hm hwidth] at hr
      simp at hr
    · intro hwidth
      obtain ⟨rest, hrest⟩ := hw.front
      exact ⟨_, Head.takes_skip hrest.symm, integer_of_inWidth hw hm hwidth⟩
  beyond w m hw hm hwidth := integer_of_not_inWidth hw hm hwidth
  rendered n rest hrest hstop := by
    obtain ⟨k, hk, rfl⟩ := Head.exists_takes hrest
    exact ⟨k, hk, integer_complete ⟨n, rfl, rfl⟩ hk hstop⟩

/-- Zeros in front do not bring a literal over the limit, and one more than the
largest integer is over it. -/
example :
    integer (Head.start (.ofString "-0000000002147483648,")) =
        (.ok (-2147483648), (Head.start (.ofString "-0000000002147483648,")).skip 20) ∧
      (integer (Head.start (.ofString "+2147483648"))).2.pos = 0 :=
  ⟨by rfl, by decide +kernel⟩

end Value

end UniformBlock
