import UniformBlock.Journal.Instant

/-!
# Timestamps

A timestamp is a date and a time of day as RFC 3339 has them: numbers with leading
zeros, possibly a fraction of the second, and an offset from universal time. Years have
four digits, so that only instants of the years 0 to 9999 have timestamps (`IsDated`);
these are written as such (`isTimestamp_text`).
-/

namespace UniformBlock

namespace Instant

/-! ## The form of a timestamp -/

inductive IsFraction : String → Prop
  | none : IsFraction ""
  | some {digits : List Char} (hne : digits ≠ []) (hdigits : ∀ c ∈ digits, c.isDigit = true) :
      IsFraction ("." ++ String.ofList digits)

inductive IsOffset : String → Prop
  | universal : IsOffset "Z"
  | shifted {sign : String} {hours minutes : Nat} (hsign : sign = "+" ∨ sign = "-")
      (hhours : hours ≤ 23) (hminutes : minutes ≤ 59) :
      IsOffset (sign ++ padded 2 hours ++ ":" ++ padded 2 minutes)

/-- The text is a date and a time of day. The second may be a leap second. -/
inductive IsTimestamp : String → Prop
  | mk {year month day hour minute second : Nat} {fraction offset : String}
      (hyear : year ≤ 9999) (hmonth : 1 ≤ month ∧ month ≤ 12) (hday : 1 ≤ day ∧ day ≤ 31)
      (hhour : hour ≤ 23) (hminute : minute ≤ 59) (hsecond : second ≤ 60)
      (hfraction : IsFraction fraction) (hoffset : IsOffset offset) :
      IsTimestamp (padded 4 year ++ "-" ++ padded 2 month ++ "-" ++ padded 2 day ++ "T" ++
        padded 2 hour ++ ":" ++ padded 2 minute ++ ":" ++ padded 2 second ++ fraction ++ offset)

/-- The instant lies in one of the years 0 to 9999. -/
structure IsDated (t : Instant) : Prop where
  first_le : -62167219200 ≤ t.seconds
  lt_last : t.seconds < 253402300800
  /-- At most one leap second runs on. -/
  nanos_lt : t.nanos < 2 * secondNanos

/-! ## Instants are written as timestamps -/

theorem exists_padded_eq (width n : Nat) :
    ∃ digits : List Char, digits ≠ [] ∧ (∀ c ∈ digits, c.isDigit = true) ∧
      padded width n = String.ofList digits := by
  refine ⟨List.replicate (width - (toString n).length) '0' ++ Nat.toDigits 10 n, ?_, ?_, ?_⟩
  · exact List.append_ne_nil_of_right_ne_nil _ Nat.toDigits_ne_nil
  · intro c hc
    rcases List.mem_append.1 hc with hc | hc
    · rw [List.eq_of_mem_replicate hc]
      rfl
    · exact Nat.isDigit_of_mem_toDigits (by decide) (by decide) hc
  · rw [padded, String.ofList_append]
    rfl

theorem isFraction_fractionText (nanos : Nat) : IsFraction (fractionText nanos) := by
  have hpadded (width n : Nat) : IsFraction ("." ++ padded width n) := by
    obtain ⟨digits, hne, hdigits, heq⟩ := exists_padded_eq width n
    rw [heq]
    exact .some hne hdigits
  unfold fractionText
  split
  · exact .none
  · split
    · exact hpadded _ _
    · split <;> exact hpadded _ _

/-- Years of an era and days of a year, counted from the first of March. -/
theorem bounds_dayOfEra {dayOfEra yearOfEra dayOfYear : Nat} (hday : dayOfEra < 146097)
    (hyear : yearOfEra =
      (dayOfEra - dayOfEra / 1460 + dayOfEra / 36524 - dayOfEra / 146096) / 365)
    (hrest : dayOfYear = dayOfEra - (365 * yearOfEra + yearOfEra / 4 - yearOfEra / 100)) :
    yearOfEra ≤ 399 ∧ dayOfYear ≤ 366 ∧
      (yearOfEra = 399 → dayOfEra < 146037 → dayOfYear ≤ 305) ∧
      (146037 ≤ dayOfEra → yearOfEra = 399 ∧ 306 ≤ dayOfYear) := by
  omega

/-- January of the year 0 ends the era before the first one, and December of the year
9999 lies in the last but one month of its year. -/
theorem bounds_ofDays {days : Int} (hfirst : -719528 ≤ days) (hlast : days ≤ 2932896) :
    (0 ≤ (Date.ofDays days).year ∧ (Date.ofDays days).year ≤ 9999) ∧
      (1 ≤ (Date.ofDays days).month ∧ (Date.ofDays days).month ≤ 12) ∧
      (1 ≤ (Date.ofDays days).day ∧ (Date.ofDays days).day ≤ 31) := by
  have hdiv := Int.mul_fdiv_add_fmod (days + Date.epochDays) Date.eraDays
  have hnonneg := Int.fmod_nonneg_of_pos (days + Date.epochDays) (show 0 < Date.eraDays by decide)
  have hlt := Int.fmod_lt_of_pos (days + Date.epochDays) (show 0 < Date.eraDays by decide)
  unfold Date.ofDays
  simp only
  generalize (days + Date.epochDays).fdiv Date.eraDays = era at hdiv ⊢
  generalize (days + Date.epochDays).fmod Date.eraDays = dayOfEra at hdiv hnonneg hlt ⊢
  obtain ⟨dayOfEra, rfl⟩ := Int.eq_ofNat_of_zero_le hnonneg
  rw [Int.toNat_natCast]
  generalize hyear : (dayOfEra - dayOfEra / 1460 + dayOfEra / 36524 - dayOfEra / 146096) / 365 =
    yearOfEra
  generalize hrest : dayOfEra - (365 * yearOfEra + yearOfEra / 4 - yearOfEra / 100) = dayOfYear
  simp only [Date.eraDays, Date.epochDays] at hdiv hlt
  have hbounds := bounds_dayOfEra (by omega) hyear.symm hrest.symm
  split <;> split <;> omega

/-- Dated instants are written as timestamps. -/
theorem isTimestamp_text {t : Instant} (ht : t.IsDated) : IsTimestamp t.text := by
  obtain ⟨hfirst, hlast, hnanos⟩ := ht
  have hdiv := Int.mul_fdiv_add_fmod t.seconds daySeconds
  have hnonneg := Int.fmod_nonneg_of_pos t.seconds (show 0 < daySeconds by decide)
  have hlt := Int.fmod_lt_of_pos t.seconds (show 0 < daySeconds by decide)
  simp only [daySeconds, secondNanos] at hdiv hnonneg hlt hnanos
  obtain ⟨hyear, hmonth, hday⟩ := @bounds_ofDays (t.seconds.fdiv daySeconds)
    (by simp only [daySeconds]; omega) (by simp only [daySeconds]; omega)
  have hoffset : IsOffset ("+" ++ padded 2 0 ++ ":" ++ padded 2 0) :=
    .shifted (.inl rfl) (by decide) (by decide)
  rw [text, yearText, if_pos hyear]
  refine .mk (by omega) hmonth hday ?_ ?_ ?_ (isFraction_fractionText _) hoffset
  all_goals
    simp only [daySeconds, secondNanos]
    omega

end Instant

end UniformBlock
