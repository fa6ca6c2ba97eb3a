import Mathlib.Algebra.Order.Field.Rat
import Mathlib.Tactic.Linarith
import Mathlib.Tactic.Ring
import UniformBlock.Number.Format

/-!
# Rounded numbers

`divRound` finds the whole number nearest to a quotient, and the even one of two
equally near ones (`isNearest_divRound`). Nothing more than this is needed to
compare a rounded number with a bound: a whole bound is kept, and of the numbers
below an even bound exactly those are rounded up to it that are half a one below
it or less (`IsNearest.lt_iff`).

A quotient that a format holds is not changed by rounding
(`Format.units_round_of_holds`). What fits the significand is held, and stays so when
it is halved again and again, down to single units (`Format.holds_mul_two_pow`).
-/

namespace UniformBlock

/-! ## Rounding -/

/-- The whole number nearest to `x`, the even one of two equally near ones. -/
structure IsNearest (x : ℚ) (n : ℕ) : Prop where
  near : |x - n| ≤ 1 / 2
  even : |x - n| = 1 / 2 → Even n

namespace IsNearest

variable {x : ℚ} {m n : ℕ}

theorem le_of_le (h : IsNearest x n) (hx : x ≤ m) : n ≤ m := by
  have hnear := abs_le.1 h.near
  have hlt : (n : ℚ) < m + 1 := by linarith
  exact Nat.lt_succ_iff.1 (by exact_mod_cast hlt)

theorem ge_of_ge (h : IsNearest x n) (hx : m ≤ x) : m ≤ n := by
  have hnear := abs_le.1 h.near
  have hlt : (m : ℚ) < n + 1 := by linarith
  exact Nat.lt_succ_iff.1 (by exact_mod_cast hlt)

/-- The half below an even number belongs to it. -/
theorem lt_iff (h : IsNearest x n) (hm : Even m) : n < m ↔ x < m - 1 / 2 := by
  have hnear := abs_le.1 h.near
  constructor
  · intro hlt
    have hle : (n : ℚ) + 1 ≤ m := by exact_mod_cast hlt
    by_contra hge
    -- the number is half way between `m` and its odd neighbour
    have hx : x - n = 1 / 2 := by linarith
    have hsucc : n + 1 = m := by
      have hcast : (n : ℚ) + 1 = m := by linarith
      exact_mod_cast hcast
    have heven : Even n := h.even (by rw [hx, abs_of_pos (by norm_num)])
    exact absurd (hsucc ▸ hm) (Nat.even_add_one.not.2 (not_not.2 heven))
  · intro hlt
    have hcast : (n : ℚ) < m := by linarith
    exact_mod_cast hcast

end IsNearest

theorem even_divRound_of_tie {num den : ℕ} (hden : 0 < den)
    (htie : 2 * num = 2 * (divRound num den * den) + den ∨
      2 * num + den = 2 * (divRound num den * den)) : Even (divRound num den) := by
  have hdiv : den * (num / den) + num % den = num := Nat.div_add_mod num den
  have hmod : num % den < den := Nat.mod_lt num hden
  have hmul : num / den * den = den * (num / den) := Nat.mul_comm _ _
  have hsucc : (num / den + 1) * den = den * (num / den) + den := by
    rw [Nat.add_mul, Nat.one_mul, hmul]
  rw [Nat.even_iff]
  unfold divRound at htie ⊢
  simp only at htie ⊢
  split at htie
  · rename_i hup
    rw [if_pos hup]
    rw [hsucc] at htie
    omega
  · rename_i hup
    rw [if_neg hup]
    rw [hmul] at htie
    omega

theorem isNearest_divRound (num : ℕ) {den : ℕ} (hden : 0 < den) :
    IsNearest (num / den) (divRound num den) := by
  have hpos : (0 : ℚ) < den := by exact_mod_cast hden
  have hbelow : 2 * (divRound num den * den : ℚ) ≤ 2 * num + den := by
    exact_mod_cast two_mul_divRound_mul_le num den
  have habove : 2 * (num : ℚ) ≤ 2 * (divRound num den * den) + den := by
    exact_mod_cast two_mul_le_two_mul_divRound_mul num hden
  have hquot : (num : ℚ) / den * den = num := div_mul_cancel₀ _ hpos.ne'
  constructor
  · rw [abs_le]
    constructor
    · rw [← mul_le_mul_iff_left₀ hpos, sub_mul, hquot]
      linarith
    · rw [← mul_le_mul_iff_left₀ hpos, sub_mul, hquot]
      linarith
  · intro htie
    refine even_divRound_of_tie hden ?_
    rcases eq_or_eq_neg_of_abs_eq htie with h | h
    · left
      have hcast : 2 * (num : ℚ) = 2 * (divRound num den * den) + den := by
        rw [← hquot, eq_add_of_sub_eq h]
        ring
      exact_mod_cast hcast
    · right
      have hcast : 2 * (num : ℚ) + den = 2 * (divRound num den * den) := by
        rw [← hquot, eq_add_of_sub_eq h]
        ring
      exact_mod_cast hcast

/-! ## Numbers that a format holds -/

namespace Format

/-- The format holds a number of units: it is a significand after some doublings of
the step, and its code stands before the one of infinity. -/
def Holds (f : Format) (u : ℕ) : Prop :=
  ∃ d m, u = m * 2 ^ d ∧ m < 2 ^ f.precision ∧ (0 < d → 2 ^ (f.precision - 1) ≤ m) ∧
    d * 2 ^ (f.precision - 1) + m < f.infinity

/-- The finite number with a given code. -/
def value (f : Format) (code : ℕ) : ℚ := f.units code / f.denominator

variable {f : Format}

theorem denominator_eq (f : Format) : f.denominator = 2 ^ f.scale := rfl

theorem denominator_pos (f : Format) : 0 < f.denominator := Nat.two_pow_pos f.scale

theorem two_pow_precision (hp : 0 < f.precision) :
    2 ^ f.precision = 2 * 2 ^ (f.precision - 1) := by
  rw [← Nat.pow_succ', Nat.succ_eq_add_one, Nat.sub_add_cancel hp]

theorem units_add {d m : ℕ} (hp : 0 < f.precision) (hm : m < 2 ^ f.precision)
    (hd : 0 < d → 2 ^ (f.precision - 1) ≤ m) :
    f.units (d * 2 ^ (f.precision - 1) + m) = m * 2 ^ d := by
  have hstep : 0 < 2 ^ (f.precision - 1) := Nat.two_pow_pos _
  rw [two_pow_precision hp] at hm
  have hdoublings : (d * 2 ^ (f.precision - 1) + m) / 2 ^ (f.precision - 1) - 1 = d := by
    rw [Nat.mul_comm, Nat.mul_add_div hstep]
    have hle : m / 2 ^ (f.precision - 1) < 2 := Nat.div_lt_of_lt_mul (by omega)
    rcases Nat.eq_zero_or_pos d with hzero | hpos
    · omega
    · have hone : 0 < m / 2 ^ (f.precision - 1) := Nat.div_pos (hd hpos) hstep
      omega
  simp only [units, Nat.pow_eq, hdoublings, Nat.add_sub_cancel_left]

/-- After its doublings of the step, a number has a significand of the format. -/
theorem doublings_bounds (hp : 0 < f.precision) (whole : ℕ) :
    whole < 2 ^ (f.precision + f.doublings whole) ∧
      (0 < f.doublings whole → 2 ^ (f.precision - 1 + f.doublings whole) ≤ whole) := by
  unfold doublings
  split
  · rename_i hzero
    rw [hzero]
    exact ⟨Nat.two_pow_pos _, fun hpos => absurd hpos (Nat.lt_irrefl 0)⟩
  · rename_i hne
    constructor
    · exact Nat.lt_of_lt_of_le Nat.lt_log2_self (Nat.pow_le_pow_right (by decide) (by omega))
    · intro hpos
      rw [show f.precision - 1 + (whole.log2 + 1 - f.precision) = whole.log2 by omega]
      exact Nat.log2_self_le hne

/-- The doublings that a number needs are not above those that are enough for it. -/
theorem le_of_two_pow_le {whole d e : ℕ} (hd : 0 < d → 2 ^ (f.precision - 1 + d) ≤ whole)
    (he : whole < 2 ^ (f.precision + e)) : d ≤ e := by
  by_contra hlt
  have hpow : 2 ^ (f.precision - 1 + d) < 2 ^ (f.precision + e) :=
    Nat.lt_of_le_of_lt (hd (by omega)) he
  have := (Nat.pow_lt_pow_iff_right (by decide)).1 hpow
  omega

theorem mul_two_pow_lt {m d : ℕ} (hm : m < 2 ^ f.precision) :
    m * 2 ^ d < 2 ^ (f.precision + d) := by
  rw [Nat.pow_add]
  exact Nat.mul_lt_mul_of_pos_right hm (Nat.two_pow_pos d)

theorem doublings_mul {d m : ℕ} (hp : 0 < f.precision) (hm : m < 2 ^ f.precision)
    (hd : 0 < d → 2 ^ (f.precision - 1) ≤ m) : f.doublings (m * 2 ^ d) = d := by
  obtain ⟨hlt, hle⟩ := doublings_bounds hp (m * 2 ^ d)
  refine Nat.le_antisymm (le_of_two_pow_le hle (mul_two_pow_lt hm))
    (le_of_two_pow_le (fun hpos => ?_) hlt)
  rw [Nat.pow_add]
  exact Nat.mul_le_mul_right _ (hd hpos)

/-- A quotient that the format holds is not rounded. -/
theorem units_round_of_holds (hp : 0 < f.precision) {num den u : ℕ} (hu : f.Holds u)
    (hden : 0 < den) (hnum : num * f.denominator = u * den) : f.units (f.round num den) = u := by
  obtain ⟨d, m, rfl, hm, hd, hinfinity⟩ := hu
  have hround : f.round num den = d * 2 ^ (f.precision - 1) + m := by
    have hscaled : num * 2 ^ f.scale = m * 2 ^ d * den := hnum
    have hquot : divRound (m * 2 ^ d * den) (den * 2 ^ d) = m := by
      rw [Nat.mul_assoc, Nat.mul_comm (2 ^ d)]
      exact divRound_mul_right m (Nat.mul_pos hden (Nat.two_pow_pos d))
    simp only [round, Nat.pow_eq, hscaled, Nat.mul_div_cancel _ hden, doublings_mul hp hm hd, hquot]
    exact Nat.min_eq_left hinfinity.le
  rw [hround, units_add hp hm hd]

/-- A whole number that fits a significand is held, and so is its quotient by a power
of two as long as no unit has to be divided. -/
theorem holds_mul_two_pow (hp : 0 < f.precision)
    (hinfinity : (f.scale + 2) * 2 ^ (f.precision - 1) ≤ f.infinity) {n e : ℕ}
    (hn : n < 2 ^ f.precision) (he : e ≤ f.scale) : f.Holds (n * 2 ^ e) := by
  obtain ⟨hlt, hle⟩ := doublings_bounds hp (n * 2 ^ e)
  generalize f.doublings (n * 2 ^ e) = d at hlt hle
  have hde : d ≤ e := le_of_two_pow_le hle (mul_two_pow_lt hn)
  have hsplit : n * 2 ^ e = n * 2 ^ (e - d) * 2 ^ d := by
    rw [Nat.mul_assoc, ← Nat.pow_add, Nat.sub_add_cancel hde]
  rw [hsplit, Nat.pow_add] at hlt hle
  have hm : n * 2 ^ (e - d) < 2 ^ f.precision := Nat.lt_of_mul_lt_mul_right hlt
  refine ⟨d, n * 2 ^ (e - d), hsplit, hm,
    fun hpos => Nat.le_of_mul_le_mul_right (hle hpos) (Nat.two_pow_pos d), ?_⟩
  have hcode : d * 2 ^ (f.precision - 1) ≤ f.scale * 2 ^ (f.precision - 1) :=
    Nat.mul_le_mul_right _ (hde.trans he)
  rw [two_pow_precision hp] at hm
  rw [Nat.add_mul] at hinfinity
  omega

theorem units_round_of_lt (hp : 0 < f.precision)
    (hinfinity : (f.scale + 2) * 2 ^ (f.precision - 1) ≤ f.infinity) {n : ℕ}
    (hn : n < 2 ^ f.precision) : f.units (f.round n 1) = n * f.denominator :=
  units_round_of_holds hp (holds_mul_two_pow hp hinfinity hn le_rfl) Nat.one_pos
    (Nat.mul_one _).symm

end Format

end UniformBlock
