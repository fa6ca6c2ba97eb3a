import UniformBlock.Proofs.Reading

/-!
# Number literals and their grammar

`FloatLiteral.take?` finds a literal of the right form in front of what is left
to read (`take?_sound`), and it finds every such literal that is followed by a
byte which cannot extend it (`take?_complete`). The parts of a literal are
treated one by one, in the order in which they are taken.
-/

namespace UniformBlock

open Ascii Grammar

/-- A byte that may extend a literal: a digit, a point or an exponent mark. -/
def isLiteral (b : UInt8) : Bool := isDigit b || b == point || b == lowerE || b == upperE

theorem isDigit_eq_false_of_isLiteral {b : UInt8} (h : isLiteral b = false) :
    isDigit b = false := by
  simp only [isLiteral, Bool.or_eq_false_iff] at h
  exact h.1.1.1

theorem stops_isDigit {bs : List UInt8} (h : Stops isLiteral bs) : Stops isDigit bs :=
  fun b hb => isDigit_eq_false_of_isLiteral (h b hb)

theorem isSign_eq_false_of_isDigit {b : UInt8} (h : isDigit b = true) : isSign b = false := by
  rw [isDigit_iff] at h
  rw [Bool.eq_false_iff]
  intro hs
  simp only [isSign, Bool.or_eq_true, beq_iff_eq] at hs
  rcases hs with rfl | rfl
  · exact absurd h (by decide)
  · exact absurd h (by decide)

/-! ## Signs -/

theorem takeSign_sound (bs : List UInt8) : ∀ b ∈ (takeSign bs).1, isSign b = true := by
  intro b hb
  cases bs with
  | nil => simp [takeSign] at hb
  | cons a as =>
      by_cases ha : isSign a = true
      · simp only [takeSign, if_pos ha, Option.mem_def, Option.some.injEq] at hb
        exact hb ▸ ha
      · simp [takeSign, ha] at hb

theorem takeSign_complete {sign : Option UInt8} {bs : List UInt8}
    (hsign : ∀ b ∈ sign, isSign b = true) (hbs : Stops isSign bs) :
    takeSign (sign.toList ++ bs) = (sign, bs) := by
  cases sign with
  | some b =>
      have hb : isSign b = true := hsign b rfl
      simp [takeSign, hb]
  | none =>
      cases bs with
      | nil => rfl
      | cons b bs =>
          have hb : isSign b = false := stops_cons.1 hbs
          simp [takeSign, hb]

/-! ## Exponents -/

namespace Exponent

theorem take?_sound {bs : List UInt8} {e : Exponent} (h : take? bs = some e) :
    ExponentForm e ∧ ∃ rest, bs = e.bytes ++ rest := by
  cases bs with
  | nil => cases h
  | cons b bs =>
      simp only [take?] at h
      split at h
      · rename_i hmark
        cases hdigits : (takeSign bs).2.takeWhile isDigit with
        | nil =>
            rw [hdigits] at h
            cases h
        | cons d ds =>
            rw [hdigits] at h
            obtain rfl := Option.some.inj h
            refine ⟨⟨by simpa using hmark, takeSign_sound bs, ?_, by simp⟩,
              (takeSign bs).2.drop (d :: ds).length, ?_⟩
            · rw [← hdigits]
              exact run_takeWhile _ _
            · have hrest := takeWhile_append_drop isDigit (takeSign bs).2
              rw [hdigits] at hrest
              rw [bytes, List.cons_append, List.append_assoc, hrest, takeSign_append]
      · cases h

theorem take?_complete {e : Exponent} {rest : List UInt8} (he : ExponentForm e)
    (hrest : Stops isDigit rest) : take? (e.bytes ++ rest) = some e := by
  obtain ⟨mark, sign, digits⟩ := e
  obtain ⟨hmark, hsign, hrun, hne⟩ := he
  simp only at hmark hsign hrun hne
  have hstop : Stops isSign (digits ++ rest) := by
    cases digits with
    | nil => exact absurd rfl hne
    | cons d ds => exact stops_cons.2 (isSign_eq_false_of_isDigit (run_cons.1 hrun).1)
  have htake : takeSign (sign.toList ++ (digits ++ rest)) = (sign, digits ++ rest) :=
    takeSign_complete hsign hstop
  rw [bytes, List.cons_append, List.append_assoc, take?, if_pos (by simpa using hmark), htake]
  simp only
  rw [takeWhile_append hrun hrest]
  cases digits with
  | nil => exact absurd rfl hne
  | cons d ds => rfl

theorem take?_eq_none {bs : List UInt8} (h : Stops isLiteral bs) : take? bs = none := by
  cases bs with
  | nil => rfl
  | cons b bs =>
      have hb := stops_cons.1 h
      simp only [isLiteral, Bool.or_eq_false_iff] at hb
      rw [take?, if_neg]
      simp [hb.1.2, hb.2]

/-- An optional exponent is found again, and nothing is found in its place where
there is none. -/
theorem take?_optional {e : Option Exponent} {rest : List UInt8}
    (he : ∀ x ∈ e, ExponentForm x) (hrest : Stops isLiteral rest) :
    take? ((e.map bytes).getD [] ++ rest) = e := by
  cases e with
  | some x => exact take?_complete (he x rfl) (stops_isDigit hrest)
  | none => exact take?_eq_none hrest

/-- An optional exponent extends neither the digits nor the fraction before it. -/
theorem stops_optional {e : Option Exponent} {rest : List UInt8}
    (he : ∀ x ∈ e, ExponentForm x) (hrest : Stops isLiteral rest) :
    Stops (fun b => isDigit b || b == point) ((e.map bytes).getD [] ++ rest) := by
  cases e with
  | some x =>
      have hmark := (he x rfl).mark
      rw [Option.map_some, Option.getD_some, bytes, List.cons_append, stops_cons]
      rcases hmark with hmark | hmark
      · rw [hmark]
        decide
      · rw [hmark]
        decide
  | none =>
      intro b hb
      have hstop := hrest b hb
      simp only [isLiteral, Bool.or_eq_false_iff] at hstop ⊢
      exact hstop.1.1

end Exponent

/-! ## Integers -/

namespace IntegerLiteral

theorem take?_sound {bs : List UInt8} {l : IntegerLiteral} (h : take? bs = some l) :
    IntegerForm l ∧ ∃ rest, bs = l.bytes ++ rest := by
  simp only [take?] at h
  cases hdigits : (takeSign bs).2.takeWhile isDigit with
  | nil =>
      rw [hdigits] at h
      cases h
  | cons d ds =>
      rw [hdigits] at h
      obtain rfl := Option.some.inj h
      have hrest := takeWhile_append_drop isDigit (takeSign bs).2
      rw [hdigits] at hrest
      refine ⟨⟨takeSign_sound bs, hdigits ▸ run_takeWhile _ _, by simp⟩,
        (takeSign bs).2.drop (d :: ds).length, ?_⟩
      rw [bytes, List.append_assoc, hrest, takeSign_append]

/-- A literal is found with all digits that follow it. -/
theorem take?_append {l : IntegerLiteral} (hl : IntegerForm l) (rest : List UInt8) :
    take? (l.bytes ++ rest) =
      some { l with digits := l.digits ++ rest.takeWhile isDigit } := by
  obtain ⟨sign, digits⟩ := l
  obtain ⟨hsign, hrun, hne⟩ := hl
  simp only at hsign hrun hne
  obtain ⟨d, ds, rfl⟩ := List.exists_cons_of_ne_nil hne
  have hstop : Stops isSign (d :: ds ++ rest) :=
    stops_cons.2 (isSign_eq_false_of_isDigit (run_cons.1 hrun).1)
  rw [bytes, List.append_assoc, take?, takeSign_complete hsign hstop]
  simp only
  rw [List.takeWhile_append_of_pos hrun]
  rfl

/-- A literal that no digit follows is found as it was written. -/
theorem take?_complete {l : IntegerLiteral} {rest : List UInt8} (hl : IntegerForm l)
    (hrest : Stops isDigit rest) : take? (l.bytes ++ rest) = some l := by
  have hnone : rest.takeWhile isDigit = [] := takeWhile_append run_nil hrest
  rw [take?_append hl, hnone, List.append_nil]

end IntegerLiteral

/-! ## Fractions and whole literals -/

namespace FloatLiteral

theorem takeFraction?_sound {whole bs ds : List UInt8} (h : takeFraction? whole bs = some ds) :
    Run isDigit ds ∧ ¬ (whole = [] ∧ ds = []) ∧
      bs = point :: ds ++ bs.drop (ds.length + 1) := by
  cases bs with
  | nil => cases h
  | cons b bs =>
      simp only [takeFraction?] at h
      split at h
      · cases h
      · rename_i hcond
        obtain rfl := Option.some.inj h
        rw [not_or, not_not] at hcond
        obtain ⟨rfl, hne⟩ := hcond
        refine ⟨run_takeWhile _ _, hne, ?_⟩
        rw [List.drop_succ_cons, List.cons_append, takeWhile_append_drop]

theorem takeFraction?_complete {whole ds rest : List UInt8} (hds : Run isDigit ds)
    (hne : ¬ (whole = [] ∧ ds = [])) (hrest : Stops isDigit rest) :
    takeFraction? whole (point :: (ds ++ rest)) = some ds := by
  simp only [takeFraction?, takeWhile_append hds hrest, ne_eq, not_true_eq_false, false_or]
  rw [if_neg hne]

theorem takeFraction?_eq_none {whole bs : List UInt8} (h : Stops (· == point) bs) :
    takeFraction? whole bs = none := by
  cases bs with
  | nil => rfl
  | cons b bs =>
      have hb : b ≠ point := by simpa using stops_cons.1 h
      simp [takeFraction?, hb]

/-- The literal that is found has the right form and stands in front. -/
theorem take?_sound {bs : List UInt8} {l : FloatLiteral} (h : take? bs = some l) :
    LiteralForm l ∧ ∃ rest, bs = l.bytes ++ rest := by
  simp only [take?] at h
  split at h
  · cases h
  rename_i hnone
  have hsign := takeSign_append bs
  have hwhole := takeWhile_append_drop isDigit (takeSign bs).2
  generalize hsigned : (takeSign bs).2 = signed at *
  generalize hdigits : signed.takeWhile isDigit = whole at *
  generalize hafter : signed.drop whole.length = after at *
  obtain rfl := Option.some.inj h
  have hrun : Run isDigit whole := hdigits ▸ run_takeWhile _ _
  have hexp (cs : List UInt8) : (∀ e ∈ Exponent.take? cs, ExponentForm e) ∧
      ∃ rest, cs = ((Exponent.take? cs).map Exponent.bytes).getD [] ++ rest := by
    cases he : Exponent.take? cs with
    | none => exact ⟨by simp, cs, rfl⟩
    | some e =>
        obtain ⟨hform, hrest⟩ := Exponent.take?_sound he
        exact ⟨by simpa using hform, by simpa using hrest⟩
  cases hfraction : takeFraction? whole after with
  | none =>
      obtain ⟨hform, rest, hrest⟩ := hexp after
      rw [hfraction] at hnone
      refine ⟨⟨takeSign_sound bs, hrun, by simp, ?_, by simpa using hform⟩, rest, ?_⟩
      · exact Or.inl fun hnil => hnone ⟨hnil, rfl⟩
      · simp only [bytes, Option.map_none, Option.getD_none, List.append_nil, List.append_assoc,
          List.drop_zero]
        rw [← hrest, hwhole, hsign]
  | some ds =>
      obtain ⟨hds, hne, heq⟩ := takeFraction?_sound hfraction
      obtain ⟨hform, rest, hrest⟩ := hexp (after.drop (ds.length + 1))
      refine ⟨⟨takeSign_sound bs, hrun, by simpa using hds, ?_, by simpa using hform⟩, rest, ?_⟩
      · by_cases hnil : whole = []
        · exact Or.inr ⟨ds, rfl, fun h => hne ⟨hnil, h⟩⟩
        · exact Or.inl hnil
      · simp only [bytes, Option.map_some, Option.getD_some, List.append_assoc]
        rw [← hrest, ← heq, hwhole, hsign]

theorem bytes_eq_append (l : FloatLiteral) :
    l.bytes = { l with exponent := none }.bytes ++ (l.exponent.map Exponent.bytes).getD [] := by
  simp [bytes]

/-- A literal without an exponent is found as it was written, with the exponent that
follows it, if what follows extends neither its digits nor its fraction. -/
theorem take?_append {l : FloatLiteral} {tail : List UInt8} (hl : LiteralForm l)
    (hexponent : l.exponent = none) (hdigit : Stops isDigit tail)
    (hpoint : l.fraction = none → Stops (· == point) tail) :
    take? (l.bytes ++ tail) = some { l with exponent := Exponent.take? tail } := by
  obtain ⟨sign, whole, fraction, exponent⟩ := l
  obtain rfl : exponent = none := hexponent
  obtain ⟨hsign, hwhole, hfraction, hmantissa, -⟩ := hl
  simp only at hsign hwhole hfraction hmantissa hpoint
  simp only [bytes, List.append_assoc, Option.map_none, Option.getD_none, List.nil_append]
  cases fraction with
  | none =>
      have hne : whole ≠ [] := hmantissa.resolve_right (by simp)
      have hstart : Stops isSign (whole ++ tail) := by
        cases whole with
        | nil => exact absurd rfl hne
        | cons d ds => exact stops_cons.2 (isSign_eq_false_of_isDigit (run_cons.1 hwhole).1)
      simp only [Option.map_none, Option.getD_none, List.nil_append]
      rw [take?, takeSign_complete hsign hstart]
      simp only [takeWhile_append hwhole hdigit, List.drop_left,
        takeFraction?_eq_none (hpoint rfl), hne, false_and, if_false, Option.map_none,
        Option.getD_none, List.drop_zero]
  | some ds =>
      have hds : Run isDigit ds := hfraction ds rfl
      have hne : ¬ (whole = [] ∧ ds = []) := by
        rintro ⟨hnil, rfl⟩
        rcases hmantissa with h | ⟨ds, h, hnil⟩
        · exact h hnil
        · exact hnil (Option.some.inj h).symm
      have hstart : Stops isSign (whole ++ point :: (ds ++ tail)) := by
        cases whole with
        | nil => exact stops_cons.2 (by decide)
        | cons d ds => exact stops_cons.2 (isSign_eq_false_of_isDigit (run_cons.1 hwhole).1)
      have hmiddle : Stops isDigit (point :: (ds ++ tail)) := stops_cons.2 (by decide)
      simp only [Option.map_some, Option.getD_some, List.cons_append]
      rw [take?, takeSign_complete hsign hstart]
      simp only [takeWhile_append hwhole hmiddle, List.drop_left,
        takeFraction?_complete hds hne hdigit, reduceCtorEq, and_false, if_false,
        Option.map_some, Option.getD_some, List.drop_succ_cons]

/-- A literal that nothing extends is found as it was written. -/
theorem take?_complete {l : FloatLiteral} {rest : List UInt8} (hl : LiteralForm l)
    (hrest : Stops isLiteral rest) : take? (l.bytes ++ rest) = some l := by
  have htail := Exponent.stops_optional hl.exponent hrest
  have hfront : LiteralForm { l with exponent := none } :=
    ⟨hl.sign, hl.whole, hl.fraction, hl.mantissa, by simp⟩
  rw [bytes_eq_append, List.append_assoc,
    take?_append hfront rfl (fun b hb => (Bool.or_eq_false_iff.1 (htail b hb)).1)
      (fun _ b hb => (Bool.or_eq_false_iff.1 (htail b hb)).2),
    Exponent.take?_optional hl.exponent hrest]

end FloatLiteral

namespace Value

variable {h k : Head} {x : Single}

theorem float_sound (hr : float h = (.ok x, k)) : ∃ w, NumberText x w ∧ h.Takes w k := by
  unfold float at hr
  split at hr
  · rename_i l hl
    obtain ⟨hform, rest, hrest⟩ := FloatLiteral.take?_sound hl
    obtain ⟨hx, rfl⟩ := Prod.mk.inj hr
    exact ⟨l.bytes, ⟨l, hform, Except.ok.inj hx, rfl⟩, Head.takes_skip hrest⟩
  · simp at hr

theorem float_complete {w : List UInt8} (hx : NumberText x w) (hw : h.Takes w k)
    (hstop : Stops isLiteral k.rest) : float h = (.ok x, k) := by
  obtain ⟨l, hform, rfl, rfl⟩ := hx
  rw [float, hw.rest_eq, FloatLiteral.take?_complete hform hstop, hw.eq_skip]
  rfl

end Value

end UniformBlock
