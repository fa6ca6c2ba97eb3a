import Mathlib.Data.List.Induction
import Mathlib.Data.Nat.Log
import UniformBlock.Number.ByteSize
import UniformBlock.Proofs.Numeral
import UniformBlock.Proofs.Rounding

/-!
# Sizes as they are shown

A text that shows a size is read back as an `Amount`: digits, of which some stand
behind the point, and a unit.

The unit is the largest one of which there is at least one (`unitOf_eq`). It can be
found by dividing by 1024 in the 64-bit format, where every quotient is rounded.
Below `2 ^ 53` the format holds the size and all its quotients, so that dividing
comes to the exact number of units (`scaleDown_of_lt`), and this is what is shown,
rounded to hundredths.

The unit is chosen before the number is rounded. A size that is half a hundredth or
less below the next unit is therefore shown as 1024 of the smaller one. There, and
only there, the number does not suit its unit (`ByteSize.shown_of_lt`).
-/

namespace UniformBlock

/-! ## Reading a size off a text -/

theorem decimalValue_append (ds es : List Char) :
    decimalValue (ds ++ es) = decimalValue ds * 10 ^ es.length + decimalValue es := by
  induction es using List.reverseRecOn with
  | nil => simp [decimalValue]
  | append_singleton es c ih =>
      have hconcat (cs : List Char) :
          decimalValue (cs ++ [c]) = 10 * decimalValue cs + decimalDigitValue c := by
        simp [decimalValue]
      rw [← List.append_assoc, hconcat, hconcat, ih, List.length_append, List.length_singleton,
        Nat.pow_succ]
      ring

namespace ByteSize

/-- A number of units as it is written: digits in front of the point, digits behind
it, and the place of the unit in `unitNames`. -/
structure Amount where
  whole : List Char
  fraction : List Char
  unit : ℕ

namespace Amount

def significand (a : Amount) : ℕ := decimalValue (a.whole ++ a.fraction)

def number (a : Amount) : ℚ := a.significand / 10 ^ a.fraction.length

/-- Read a text: a numeral without sign and exponent, a blank and the name of a unit. -/
def ofText? (s : String) : Option Amount := do
  let (numeral, rest) ← Json.takeNumeral? s.toList
  let unit ← unitNames.findIdx? fun name => rest == ' ' :: name.toList
  if numeral.negative || numeral.exponent.isSome then none
  else some ⟨numeral.whole, numeral.fraction.getD [], unit⟩

/-- A numeral in front of a blank and the name of a unit is read. -/
theorem ofText?_of_toList {s : String} {whole : List Char} {fraction : Option (List Char)}
    {unit : ℕ} (hnumeral : (⟨false, whole, fraction, none⟩ : Json.Numeral).WellFormed)
    (hunit : unit < unitNames.length)
    (hs : s.toList = (⟨false, whole, fraction, none⟩ : Json.Numeral).render ++
      ' ' :: (unitNames.getD unit "").toList) :
    ofText? s = some ⟨whole, fraction.getD [], unit⟩ := by
  have hends : Json.EndsNumeral (' ' :: (unitNames.getD unit "").toList) := by
    rintro c ⟨rfl⟩
    decide
  have hname : ∀ k < unitNames.length, unitNames.findIdx?
      (fun name => (' ' :: (unitNames.getD k "").toList) == ' ' :: name.toList) = some k := by
    decide
  simp only [ofText?, hs, Json.takeNumeral?_render hnumeral hends, Option.bind_eq_bind,
    Option.bind_some, hname unit hunit, Option.isSome_none, Bool.or_self, Bool.false_eq_true,
    if_false]

end Amount

def twoDigits (n : ℕ) : List Char := [Nat.digitChar (n / 10), Nat.digitChar (n % 10)]

theorem toList_padded {n : ℕ} (hn : n < 100) :
    ((if n < 10 then "0" else "") ++ toString n).toList = twoDigits n := by
  rw [String.toList_append, Nat.toString_eq_repr, Nat.toList_repr, Nat.toDigits_eq_if (by decide)]
  split
  · rename_i hlt
    rw [twoDigits, Nat.div_eq_of_lt hlt, Nat.mod_eq_of_lt hlt]
    rfl
  · rw [Nat.toDigits_of_lt_base (by omega : n / 10 < 10)]
    rfl

theorem toList_places (n : ℕ) :
    (places n).toList = decimalDigits (n / 100) ++ '.' :: twoDigits (n % 100) := by
  simp only [places, String.append_assoc]
  rw [String.toList_append, String.toList_append, toList_padded (Nat.mod_lt n (by decide)),
    Nat.toString_eq_repr, Nat.toList_repr]
  rfl

theorem decimalValue_twoDigits {n : ℕ} (hn : n < 100) : decimalValue (twoDigits n) = n := by
  have hvalue : ∀ d < 10, decimalDigitValue (Nat.digitChar d) = d := by decide
  have htens := hvalue (n / 10) (by omega)
  have hones := hvalue (n % 10) (by omega)
  simp only [decimalValue, twoDigits, List.foldl_cons, List.foldl_nil, htens, hones]
  omega

theorem digits_twoDigits {n : ℕ} (hn : n < 100) : Digits (twoDigits n) := by
  have hdigit : ∀ d < 10, isDecimalDigit (Nat.digitChar d) = true := by decide
  refine ⟨List.cons_ne_nil _ _, fun c hc => ?_⟩
  rcases List.mem_cons.1 hc with rfl | hc
  · exact hdigit _ (by omega)
  · rw [List.mem_singleton.1 hc]
    exact hdigit _ (by omega)

/-! ## The unit of a size -/

theorem unitOf_eq (size limit : ℕ) : unitOf size limit = min (Nat.log 1024 size) limit := by
  induction limit generalizing size with
  | zero => rw [unitOf, Nat.min_zero]
  | succ limit ih =>
      rw [unitOf]
      split
      · rename_i hlt
        rw [Nat.log_of_lt hlt, Nat.zero_min]
      · rename_i hge
        have hpos : 0 < Nat.log 1024 size := Nat.log_pos (by decide) (Nat.not_lt.1 hge)
        rw [ih, Nat.log_div_base]
        omega

/-! ## Divisions of the 64-bit format -/

theorem holds_binary64 {n e : ℕ} (hn : n < 2 ^ 53) (he : e ≤ Format.binary64.scale) :
    Format.binary64.Holds (n * 2 ^ e) :=
  Format.holds_mul_two_pow (by decide) (by decide) hn he

theorem units_round_one {n : ℕ} (hn : n < 2 ^ 53) :
    Format.binary64.units (Format.binary64.round n 1) = n * Format.binary64.denominator :=
  Format.units_round_of_lt (by decide) (by decide) hn

theorem rounded_of_lt {size : ℕ} (hsize : size < 2 ^ 53) : rounded size = size := by
  rw [rounded, units_round_one hsize, Nat.mul_div_cancel size (Format.denominator_pos _)]

/-- Divide a number of the 64-bit format by 1024 until less than 1024 is left, at most
`limit` times, and round every quotient. The result is the number that is left and
how often it was divided. -/
def scaleDown (code : ℕ) : ℕ → ℕ × ℕ
  | 0 => (code, 0)
  | limit + 1 =>
    if Format.binary64.units code < 1024 * Format.binary64.denominator then (code, 0)
    else
      let (rest, divisions) :=
        scaleDown (Format.binary64.div code (Format.binary64.round 1024 1)) limit
      (rest, divisions + 1)

theorem units_div_1024 {n e code : ℕ} (hn : n < 2 ^ 53) (he : e ≤ Format.binary64.scale)
    (hcode : Format.binary64.units code = n * 2 ^ e * 1024) :
    Format.binary64.units (Format.binary64.div code (Format.binary64.round 1024 1)) =
      n * 2 ^ e := by
  have hpos := Format.denominator_pos Format.binary64
  rw [Format.div, units_round_one (by decide : 1024 < 2 ^ 53), hcode]
  refine Format.units_round_of_holds (by decide) (holds_binary64 hn he) (by omega) ?_
  ring

/-- Every division is exact, so dividing ends where `unitOf` says. -/
theorem scaleDown_spec {n : ℕ} (hn : n < 2 ^ 53) {code e limit : ℕ}
    (he : e ≤ Format.binary64.scale) (hlimit : 10 * limit ≤ e)
    (hcode : Format.binary64.units code = n * 2 ^ e) :
    (scaleDown code limit).2 = unitOf (n * 2 ^ e / Format.binary64.denominator) limit ∧
      Format.binary64.units (scaleDown code limit).1 * 1024 ^ (scaleDown code limit).2 =
        n * 2 ^ e := by
  have hpos := Format.denominator_pos Format.binary64
  induction limit generalizing code e with
  | zero => exact ⟨rfl, by rw [scaleDown, Nat.pow_zero, Nat.mul_one, hcode]⟩
  | succ limit ih =>
      obtain ⟨d, rfl⟩ : ∃ d, e = d + 10 := ⟨e - 10, by omega⟩
      have hpow : n * 2 ^ (d + 10) = n * 2 ^ d * 1024 := by rw [Nat.pow_add, Nat.mul_assoc]
      rw [hpow] at hcode ⊢
      have hlt_iff := Nat.div_lt_iff_lt_mul (x := n * 2 ^ d * 1024) (y := 1024) hpos
      rw [scaleDown, unitOf, hcode]
      split
      · rename_i hlt
        rw [if_pos (hlt_iff.2 hlt)]
        exact ⟨rfl, by rw [Nat.pow_zero, Nat.mul_one, hcode]⟩
      · rename_i hge
        rw [if_neg (hlt_iff.not.2 hge)]
        obtain ⟨hdivisions, hrest⟩ :=
          ih (by omega) (by omega) (units_div_1024 hn (by omega) hcode)
        have hquot : n * 2 ^ d * 1024 / Format.binary64.denominator / 1024 =
            n * 2 ^ d / Format.binary64.denominator := by
          rw [Nat.div_div_eq_div_mul, Nat.mul_div_mul_right _ _ (by decide)]
        refine ⟨by rw [hquot, ← hdivisions], ?_⟩
        rw [Nat.pow_succ, ← Nat.mul_assoc, hrest]

/-- Below `2 ^ 53`, dividing comes to the unit and to the exact number of units. -/
theorem scaleDown_of_lt {size unit : ℕ} (hsize : size < 2 ^ 53)
    (hunit : unit = min (Nat.log 1024 size) (unitNames.length - 1)) :
    ∃ rest, scaleDown (Format.binary64.round size 1) (unitNames.length - 1) = (rest, unit) ∧
      Format.binary64.value rest = size / 1024 ^ unit := by
  have hpos := Format.denominator_pos Format.binary64
  have hcode := units_round_one hsize
  rw [Format.denominator_eq] at hcode
  obtain ⟨hdivisions, hrest⟩ := scaleDown_spec hsize le_rfl
    (by decide : 10 * (unitNames.length - 1) ≤ Format.binary64.scale) hcode
  rw [← Format.denominator_eq] at hdivisions hrest
  rw [Nat.mul_div_cancel _ hpos, unitOf_eq, ← hunit] at hdivisions
  generalize scaleDown (Format.binary64.round size 1) (unitNames.length - 1) = result
    at hdivisions hrest ⊢
  obtain ⟨rest, divisions⟩ := result
  obtain rfl : divisions = unit := hdivisions
  refine ⟨rest, rfl, ?_⟩
  have hden : (Format.binary64.denominator : ℚ) ≠ 0 := by exact_mod_cast hpos.ne'
  rw [Format.value, div_eq_div_iff hden (by positivity)]
  exact_mod_cast hrest

namespace Amount

/-- A number of hundredths of a unit. -/
def ofHundredths (n unit : ℕ) : Amount := ⟨decimalDigits (n / 100), twoDigits (n % 100), unit⟩

theorem significand_ofHundredths (n unit : ℕ) : (ofHundredths n unit).significand = n := by
  simp only [significand, ofHundredths]
  rw [decimalValue_append, decimalValue_decimalDigits,
    decimalValue_twoDigits (Nat.mod_lt n (by decide))]
  exact Nat.div_add_mod' n 100

theorem number_ofHundredths (n unit : ℕ) : (ofHundredths n unit).number = n / 100 := by
  rw [number, significand_ofHundredths]
  norm_num [ofHundredths, twoDigits]

end Amount

variable {size : ℕ}

theorem ofText?_text_of_lt (hsize : size < 1024) :
    Amount.ofText? (text size) = some ⟨decimalDigits size, [], 0⟩ := by
  have hunit : unitOf size (unitNames.length - 1) = 0 := by
    rw [unitOf_eq, Nat.log_of_lt hsize, Nat.zero_min]
  have htext : text size = toString size ++ " B" := by
    simp only [text, rounded_of_lt (by omega : size < 2 ^ 53), hunit]
  refine Amount.ofText?_of_toList (Json.Numeral.wellFormed_ofNat size) (by decide) ?_
  rw [htext, String.toList_append, Nat.toString_eq_repr, Nat.toList_repr]
  simp [Json.Numeral.render, decimalDigits, unitNames]

theorem ofText?_text_of_le (hsize : size < 2 ^ 53) (hle : 1024 ≤ size) {unit : ℕ}
    (hunit : unit = min (Nat.log 1024 size) (unitNames.length - 1)) :
    Amount.ofText? (text size) =
      some (.ofHundredths (divRound (size * 100) (1024 ^ unit)) unit) := by
  have hpos : 0 < Nat.log 1024 size := Nat.log_pos (by decide) hle
  have hlength : unitNames.length = 4 := rfl
  obtain ⟨k, rfl⟩ : ∃ k, unit = k + 1 := Nat.exists_eq_succ_of_ne_zero (by omega)
  rw [← unitOf_eq] at hunit
  have htext : text size = places (divRound (size * 100) (1024 ^ (k + 1))) ++ " " ++
      unitNames.getD (k + 1) "" := by
    simp only [text, rounded_of_lt hsize, ← hunit, Nat.pow_eq]
  generalize divRound (size * 100) (1024 ^ (k + 1)) = n at htext
  have hnumeral : (⟨false, decimalDigits (n / 100), some (twoDigits (n % 100)), none⟩ :
      Json.Numeral).WellFormed := by
    refine ⟨digits_decimalDigits _, (Json.Numeral.wellFormed_ofNat _).zero, ?_, by simp⟩
    rintro ds ⟨rfl⟩
    exact digits_twoDigits (Nat.mod_lt n (by decide))
  refine Amount.ofText?_of_toList hnumeral (by rw [unitOf_eq] at hunit; omega) ?_
  rw [htext, String.toList_append, String.toList_append, toList_places]
  simp [Json.Numeral.render]

/-! ## Numbers and units that suit each other -/

namespace Amount

/-- What an amount says about a size: bytes are counted, and a number of a larger
unit is rounded to hundredths and at least one. -/
structure Measures (a : Amount) (size : ℕ) : Prop where
  exact : a.unit = 0 → a.number = size
  rounded : 0 < a.unit → a.fraction.length = 2 ∧
    IsNearest (size / 1024 ^ a.unit * 100) a.significand
  one_le : 0 < a.unit → 1 ≤ a.number

/-- There is less of the unit than the next one holds. -/
def Fits (a : Amount) : Prop := a.unit + 1 < unitNames.length → a.number < 1024

end Amount

/-- From the size to the next unit there is half a hundredth of the unit or less. -/
def Brims (size unit : ℕ) : Prop :=
  unit + 1 < unitNames.length ∧ (1024 ^ (unit + 1) - 1024 ^ unit / 200 : ℚ) ≤ size

/-- How a size is shown: in the largest unit of which there is at least one, which is
also the one that exact divisions come to. The number suits the unit unless the size
brims it, and then it is 1024. -/
structure Shown (size : ℕ) (a : Amount) : Prop where
  unit_eq : a.unit = min (Nat.log 1024 size) (unitNames.length - 1)
  divided : ∃ rest, scaleDown (Format.binary64.round size 1) (unitNames.length - 1) =
    (rest, a.unit) ∧ Format.binary64.value rest = size / 1024 ^ a.unit
  measures : a.Measures size
  fits_iff : a.Fits ↔ ¬ Brims size a.unit
  number_eq : Brims size a.unit → a.number = 1024

/-- Bytes are shown as they are. -/
theorem shown_bytes (hsize : size < 1024) : Shown size ⟨decimalDigits size, [], 0⟩ := by
  have hnumber : (⟨decimalDigits size, [], 0⟩ : Amount).number = size := by
    simp [Amount.number, Amount.significand, decimalValue_decimalDigits]
  have hcast : (size : ℚ) ≤ 1023 := by exact_mod_cast Nat.le_of_lt_succ hsize
  have hbrims : ¬ Brims size 0 := by
    rintro ⟨-, hle⟩
    norm_num at hle
    linarith
  have hunit : 0 = min (Nat.log 1024 size) (unitNames.length - 1) := by
    rw [Nat.log_of_lt hsize, Nat.zero_min]
  refine ⟨hunit, scaleDown_of_lt (by omega) hunit, ⟨fun _ => hnumber,
    fun hpos => absurd hpos (Nat.lt_irrefl 0), fun hpos => absurd hpos (Nat.lt_irrefl 0)⟩,
    ⟨fun _ => hbrims, fun _ _ => ?_⟩, fun hbrim => absurd hbrim hbrims⟩
  rw [hnumber]
  linarith

/-- A size brims its unit from half a hundredth below 1024 on. -/
theorem brims_iff {unit : ℕ} :
    Brims size unit ↔ unit + 1 < unitNames.length ∧
      (102400 : ℕ) - 1 / 2 ≤ (size / 1024 ^ unit * 100 : ℚ) := by
  have hpow : (0 : ℚ) < 1024 ^ unit := by positivity
  have hbound : (1024 ^ (unit + 1) - 1024 ^ unit / 200 : ℚ) = (1024 - 1 / 200) * 1024 ^ unit := by
    ring
  rw [Brims, hbound, ← le_div_iff₀ hpow]
  refine and_congr_right fun _ => ⟨fun hle => ?_, fun hle => ?_⟩
  · push_cast
    linarith
  · push_cast at hle
    linarith

theorem fits_ofHundredths_iff {n unit : ℕ} :
    (Amount.ofHundredths n unit).Fits ↔ (unit + 1 < unitNames.length → n < 102400) := by
  have hlt : (n / 100 : ℚ) < 1024 ↔ n < 102400 := by
    rw [div_lt_iff₀ (by norm_num)]
    norm_num
  rw [← hlt, ← Amount.number_ofHundredths n unit]
  rfl

/-- There is at least one of the unit. -/
theorem one_le_div_pow {unit : ℕ} (hsize : size ≠ 0) (hunit : unit ≤ Nat.log 1024 size) :
    (1 : ℚ) ≤ size / 1024 ^ unit := by
  have hle : 1024 ^ unit ≤ size :=
    (Nat.pow_le_pow_right (by decide) hunit).trans (Nat.pow_log_le_self 1024 hsize)
  rw [le_div_iff₀ (by positivity), one_mul]
  exact_mod_cast hle

/-- There is less than one of the next unit. -/
theorem div_pow_le {unit : ℕ} (hunit : Nat.log 1024 size ≤ unit) :
    (size / 1024 ^ unit : ℚ) ≤ 1024 := by
  have hlt : size < 1024 ^ (unit + 1) :=
    (Nat.lt_pow_succ_log_self (by decide) size).trans_le
      (Nat.pow_le_pow_right (by decide) (Nat.succ_le_succ hunit))
  rw [div_le_iff₀ (by positivity), ← pow_succ']
  exact_mod_cast hlt.le

/-- Larger units are shown in hundredths. -/
theorem shown_ofHundredths (hsize : size < 2 ^ 53) (hle : 1024 ≤ size) {unit : ℕ}
    (hunit : unit = min (Nat.log 1024 size) (unitNames.length - 1)) :
    Shown size (.ofHundredths (divRound (size * 100) (1024 ^ unit)) unit) := by
  have hlength : unitNames.length = 4 := rfl
  have hlog : 0 < Nat.log 1024 size := Nat.log_pos (by decide) hle
  have hnearest : IsNearest (size / 1024 ^ unit * 100) (divRound (size * 100) (1024 ^ unit)) := by
    have h := isNearest_divRound (size * 100) (Nat.pow_pos (by decide : 0 < 1024) (n := unit))
    push_cast at h
    rwa [mul_div_right_comm] at h
  generalize divRound (size * 100) (1024 ^ unit) = n at hnearest
  have hfits : (Amount.ofHundredths n unit).Fits ↔ ¬ Brims size unit := by
    rw [fits_ofHundredths_iff, brims_iff, not_and, not_le]
    exact imp_congr_right fun _ => hnearest.lt_iff (by decide)
  refine ⟨hunit, scaleDown_of_lt hsize hunit,
    ⟨fun hzero => ?_, fun _ => ⟨rfl, ?_⟩, fun _ => ?_⟩, hfits, fun hbrims => ?_⟩
  · have hzero : unit = 0 := hzero
    omega
  · rwa [Amount.significand_ofHundredths]
  · have hone := one_le_div_pow (by omega) (by omega : unit ≤ Nat.log 1024 size)
    have hn : 100 ≤ n := hnearest.ge_of_ge (by push_cast; linarith)
    rw [Amount.number_ofHundredths, le_div_iff₀ (by norm_num)]
    norm_num
    exact_mod_cast hn
  · -- the number is not below 1024, and as there is no whole next unit, it is not above
    have hlt : unit + 1 < unitNames.length := hbrims.1
    have hnext := div_pow_le (by omega : Nat.log 1024 size ≤ unit)
    have hn : n ≤ 102400 := hnearest.le_of_le (by push_cast; linarith)
    have hge : ¬ n < 102400 := fun hn => hfits.1 (fits_ofHundredths_iff.2 fun _ => hn) hbrims
    obtain rfl : n = 102400 := by omega
    rw [Amount.number_ofHundredths]
    norm_num

/-- Below `2 ^ 53`, a size is shown in a unit that its number suits, except where it
brims the unit. -/
theorem shown_of_lt (hsize : size < 2 ^ 53) :
    ∃ a, Amount.ofText? (text size) = some a ∧ Shown size a := by
  rcases Nat.lt_or_ge size 1024 with hlt | hle
  · exact ⟨_, ofText?_text_of_lt hlt, shown_bytes hlt⟩
  · exact ⟨_, ofText?_text_of_le hsize hle rfl, shown_ofHundredths hsize hle rfl⟩

/-- The least size that brims its unit. -/
theorem shown_brimming :
    1048571 < 2 ^ 53 ∧ text 1048571 = "1024.00 KB" ∧ Brims 1048571 1 ∧
      ∃ a, Amount.ofText? (text 1048571) = some a ∧ Shown 1048571 a :=
  ⟨by decide, by decide +kernel, ⟨by decide, by norm_num⟩, shown_of_lt (by decide)⟩

/-- One byte below a megabyte there are 1024 kilobytes to be shown. -/
theorem not_fits_kilobytes :
    1048575 < 2 ^ 53 ∧ ¬ ∃ a, Amount.ofText? (text 1048575) = some a ∧
      a.Measures 1048575 ∧ a.Fits := by
  refine ⟨by decide, ?_⟩
  rintro ⟨a, ha, -, hfits⟩
  have htext : Amount.ofText? (text 1048575) = some ⟨['1', '0', '2', '4'], ['0', '0'], 1⟩ := by
    rw [show text 1048575 = "1024.00 KB" by decide +kernel]
    rfl
  obtain rfl := Option.some.inj (htext.symm.trans ha)
  have hsignificand : decimalValue ['1', '0', '2', '4', '0', '0'] = 102400 := by decide
  have hlt := hfits (by decide)
  norm_num [Amount.number, Amount.significand, hsignificand] at hlt

end ByteSize

end UniformBlock
