import Blkit.Value.Number
import Mathlib.Data.Sign.Basic
import Mathlib.Tactic.Qify

/-!
# The parts of durations

`core/days_time_duration.go` and `core/years_months_duration.go`: whole units are taken out of a
duration by a quotient that is rounded to 34 places, what is left by an exact remainder.  Just
below a multiple of a unit the quotient is rounded up to it, and the parts are too much by one
unit.
-/

namespace Blkit

/-- `Div` of the decimal package. -/
def decimalDiv (a b : ℚ) : ℚ := divRound a b numericPrecision

/-- `Mod` of the decimal package. -/
def decimalMod (a b : ℚ) : ℚ := a - b * truncate 0 (a / b)

namespace BlDaysTimeDuration

def days (secs : ℚ) : ℤ := intPart (truncate 0 (decimalDiv secs 86400))

def hours (secs : ℚ) : ℤ :=
  intPart (truncate 0 (decimalDiv (decimalMod |secs| 86400) 3600)) * SignType.sign secs

def minutes (secs : ℚ) : ℤ :=
  intPart (truncate 0 (decimalDiv (decimalMod |secs| 3600) 60)) * SignType.sign secs

def seconds (secs : ℚ) : ℚ :=
  let rem := decimalMod |secs| 60
  if secs < 0 then -rem else rem

/-- The parts make up the duration, each below the next larger unit and with the sign of the whole.
-/
structure Recombines (secs : ℚ) : Prop where
  sum : days secs * 86400 + hours secs * 3600 + minutes secs * 60 + seconds secs = secs
  hours_lt : |hours secs| < 24
  minutes_lt : |minutes secs| < 60
  seconds_lt : |seconds secs| < 60
  nonneg : 0 ≤ secs → 0 ≤ days secs ∧ 0 ≤ hours secs ∧ 0 ≤ minutes secs ∧ 0 ≤ seconds secs
  neg : secs < 0 → days secs ≤ 0 ∧ hours secs ≤ 0 ∧ minutes secs ≤ 0 ∧ seconds secs ≤ 0

end BlDaysTimeDuration

namespace BlYearsMonthsDuration

def years (months : ℚ) : ℤ := intPart (truncate 0 (decimalDiv months 12))

def months (total : ℚ) : ℚ :=
  let rem := decimalMod |total| 12
  if total < 0 then -rem else rem

structure Recombines (total : ℚ) : Prop where
  sum : years total * 12 + months total = total
  months_lt : |months total| < 12
  nonneg : 0 ≤ total → 0 ≤ years total ∧ 0 ≤ months total
  neg : total < 0 → years total ≤ 0 ∧ months total ≤ 0

end BlYearsMonthsDuration

/-! ## Quotients that are rounded up -/

/-- The quotient is not rounded up to the next integer. -/
def Clear (v x : ℚ) : Prop := ⌊x / v + 10 ^ (-34 : ℤ) / 2⌋ = ⌊x / v⌋

instance (v x : ℚ) : Decidable (Clear v x) := inferInstanceAs (Decidable (_ = _))

variable {q v x : ℚ}

/-- The sign of a number, with a plus for zero. -/
def plusMinus (q : ℚ) : ℤ := if q < 0 then -1 else 1

lemma sgn_eq (q : ℚ) : sgn q = plusMinus q := by
  rw [sgn, plusMinus]
  split <;> norm_num

lemma truncate_nonneg (hx : 0 ≤ x) : truncate 0 x = ⌊x⌋ := by
  have h := @truncate_sgn_mul 0 x hx 0
  simpa [sgn] using h

/-- The whole units in a number, with the rounding. -/
lemma intPart_decimalDiv (hv : 0 < v) : intPart (truncate 0 (decimalDiv q v)) =
    (plusMinus q * ⌊|q| / v + 10 ^ (-34 : ℤ) / 2⌋).bmod (2 ^ 64) := by
  have hfloor : ⌊(⌊|q / v| * 10 ^ 34 + 1 / 2⌋ : ℚ) / 10 ^ 34⌋ =
      ⌊|q| / v + 10 ^ (-34 : ℤ) / 2⌋ := by
    rw [show (10 : ℚ) ^ 34 = (10 ^ 34 : ℕ) by norm_num, Int.floor_div_natCast, Int.floor_intCast,
      ← Int.floor_div_natCast, abs_div, abs_of_pos hv]
    congr 1
    norm_num
    ring
  have hsgn : sgn (q / v) = plusMinus q := by
    have hneg : q / v < 0 ↔ q < 0 := by rw [div_lt_iff₀ hv, zero_mul]
    simp only [sgn_eq, plusMinus, hneg]
  have htrunc := @truncate_sgn_mul (q / v) (⌊|q / v| * 10 ^ 34 + 1 / 2⌋ / 10 ^ 34) (by positivity) 0
  rw [Nat.cast_zero, pow_zero, mul_one, div_one] at htrunc
  rw [decimalDiv, divRound, numericPrecision, htrunc, hsgn, hfloor, ← Int.cast_mul, intPart_intCast]

lemma decimalMod_abs (hv : 0 < v) : decimalMod |q| v = |q| - v * ⌊|q| / v⌋ := by
  rw [decimalMod, truncate_nonneg (by positivity)]

lemma decimalMod_nonneg (hv : 0 < v) : 0 ≤ decimalMod |q| v := by
  rw [decimalMod_abs hv, sub_nonneg, mul_comm]
  exact (le_div_iff₀ hv).1 (Int.floor_le _)

lemma decimalMod_lt (hv : 0 < v) : decimalMod |q| v < v := by
  have := (div_lt_iff₀ hv).1 (Int.lt_floor_add_one (|q| / v))
  rw [decimalMod_abs hv]
  linarith

/-- Units of units: the whole ones that are left, with the rounding. -/
lemma intPart_decimalMod (hv : 0 < v) {n : ℕ} (hn : 0 < n) (hn' : n < 2 ^ 32)
    {w : ℚ} (hw : w = n * v) :
    intPart (truncate 0 (decimalDiv (decimalMod |q| w) v)) =
      ⌊|q| / v + 10 ^ (-34 : ℤ) / 2⌋ - n * ⌊|q| / w⌋ := by
  have hnpos : (0 : ℚ) < n := by exact_mod_cast hn
  have hwpos : 0 < w := by rw [hw]; positivity
  have hrem : 0 ≤ decimalMod |q| w := decimalMod_nonneg hwpos
  have hdiv : decimalMod |q| w / v = |q| / v - (n * ⌊|q| / w⌋ : ℤ) := by
    rw [decimalMod_abs hwpos, sub_div, hw]
    push_cast
    field_simp
  have hlt : decimalMod |q| w / v < n := by
    rw [div_lt_iff₀ hv, ← hw]
    exact decimalMod_lt hwpos
  rw [intPart_decimalDiv hv, plusMinus, if_neg hrem.not_gt, one_mul, abs_of_nonneg hrem,
    Int.bmod_eq_of_le, hdiv, sub_add_eq_add_sub, Int.floor_sub_intCast]
  · have : (0 : ℤ) ≤ ⌊decimalMod |q| w / v + 10 ^ (-34 : ℤ) / 2⌋ :=
      Int.floor_nonneg.2 (by positivity)
    omega
  · rw [Int.floor_lt]
    have h1 : (10 : ℚ) ^ (-34 : ℤ) / 2 ≤ 1 := by norm_num
    have h2 : (n : ℚ) ≤ 2 ^ 32 - 1 := by
      have : n + 1 ≤ 2 ^ 32 := hn'
      have : ((n + 1 : ℕ) : ℚ) ≤ (2 ^ 32 : ℕ) := Nat.cast_le.2 this
      push_cast at this
      linarith
    norm_num
    linarith

/-- Rounding gives one unit more at most. -/
lemma floor_bounds (y : ℚ) : ⌊y⌋ ≤ ⌊y + 10 ^ (-34 : ℤ) / 2⌋ ∧
    ⌊y + 10 ^ (-34 : ℤ) / 2⌋ ≤ ⌊y⌋ + 1 := by
  refine ⟨Int.floor_mono (by norm_num), ?_⟩
  rw [← Int.floor_add_one]
  exact Int.floor_mono (by norm_num)

lemma floor_div_unit {n : ℕ} (hn : n ≠ 0) {w : ℚ} (hw : w = n * v) : ⌊x / w⌋ = ⌊x / v⌋ / n := by
  have hn' : (n : ℚ) ≠ 0 := Nat.cast_ne_zero.2 hn
  rw [← Int.mul_natCast_floor_div_cancel hn, hw, mul_comm (n : ℚ), div_mul_eq_div_div,
    div_mul_cancel₀ _ hn']

lemma ite_neg_eq (m : ℚ) : (if q < 0 then -m else m) = plusMinus q * m := by
  rw [plusMinus]
  split <;> simp

lemma plusMinus_cases (q : ℚ) : plusMinus q = 1 ∧ |q| = q ∧ 0 ≤ q ∨ plusMinus q = -1 ∧
    |q| = -q ∧ q < 0 := by
  rcases lt_or_ge q 0 with h | h
  · exact .inr ⟨if_pos h, abs_of_neg h, h⟩
  · exact .inl ⟨if_neg h.not_gt, abs_of_nonneg h, h⟩

lemma mul_sign_eq {m : ℤ} (h : q = 0 → m = 0) : m * (SignType.sign q : ℤ) = plusMinus q * m := by
  rcases lt_trichotomy q 0 with hq | hq | hq
  · simp [hq, plusMinus]
  · simp [hq, h hq]
  · simp [hq, hq.not_gt, plusMinus]

lemma eq_plusMinus_mul (q : ℚ) : q = plusMinus q * |q| := by
  rcases plusMinus_cases q with ⟨he, habs, -⟩ | ⟨he, habs, -⟩ <;> rw [he, habs] <;> simp

/-- The whole units of a number of which there are not too many: a carry may leave the `int64`s. -/
lemma whole_units (hv : 0 < v) (hfit : v * (-2 ^ 63 - 1) < q ∧ q < v * 2 ^ 63) :
    (intPart (truncate 0 (decimalDiv q v)) = plusMinus q * ⌊|q| / v + 10 ^ (-34 : ℤ) / 2⌋ ∨
      intPart (truncate 0 (decimalDiv q v)) = plusMinus q *
        (⌊|q| / v + 10 ^ (-34 : ℤ) / 2⌋ - 2 ^ 64)) ∧
    (Clear v |q| → intPart (truncate 0 (decimalDiv q v)) = plusMinus q * ⌊|q| / v⌋) := by
  have hle := (le_div_iff₀ hv).1 (Int.floor_le (|q| / v))
  have h0 : 0 ≤ ⌊|q| / v⌋ := Int.floor_nonneg.2 (by positivity)
  have hround := floor_bounds (|q| / v)
  have hbound : plusMinus q = 1 ∧ ¬ q < 0 ∧ ⌊|q| / v⌋ < 2 ^ 63 ∨ plusMinus q = -1 ∧ q < 0 ∧
      ⌊|q| / v⌋ < 2 ^ 63 + 1 := by
    rcases plusMinus_cases q with ⟨he, habs, h⟩ | ⟨he, habs, h⟩ <;> rw [habs] at hle ⊢
    · refine .inl ⟨he, h.not_gt, ?_⟩
      rw [Int.floor_lt, div_lt_iff₀ hv]
      push_cast
      linarith
    · refine .inr ⟨he, h, ?_⟩
      rw [Int.floor_lt, div_lt_iff₀ hv]
      push_cast
      linarith
  rw [intPart_decimalDiv hv, Clear]
  generalize ⌊|q| / v + 10 ^ (-34 : ℤ) / 2⌋ = A' at *
  generalize ⌊|q| / v⌋ = A at *
  rcases hbound with ⟨he, hq, hA⟩ | ⟨he, hq, hA⟩ <;> simp only [he, Int.bmod_def] <;>
    split <;> omega

namespace BlDaysTimeDuration

lemma recombines_iff {secs : ℚ} (hdays : 86400 * (-2 ^ 63 - 1) < secs ∧ secs < 86400 * 2 ^ 63) :
    Recombines secs ↔ Clear 86400 |secs| ∧ Clear 3600 |secs| ∧ Clear 60 |secs| := by
  have hzero (v w : ℚ) : intPart (truncate 0 (decimalDiv (decimalMod |0| w) v)) = 0 := by
    norm_num [decimalMod, decimalDiv, divRound, truncate, sgn, intPart]
  have hhour : hours secs = plusMinus secs * _ := mul_sign_eq fun h => h ▸ hzero _ _
  have hmin : minutes secs = plusMinus secs * _ := mul_sign_eq fun h => h ▸ hzero _ _
  rw [intPart_decimalMod (n := 24) (by norm_num) (by decide) (by decide) (by norm_num)] at hhour
  rw [intPart_decimalMod (n := 60) (by norm_num) (by decide) (by decide) (by norm_num)] at hmin
  have hsecond : seconds secs = plusMinus secs * (|secs| - 60 * ⌊|secs| / 60⌋) := by
    rw [seconds, decimalMod_abs (by norm_num), ite_neg_eq]
  obtain ⟨hday, hday'⟩ := whole_units (by norm_num) hdays
  rw [← days] at hday hday'
  have hA : ⌊|secs| / 86400⌋ = ⌊|secs| / 3600⌋ / 24 :=
    floor_div_unit (n := 24) (by decide) (by norm_num)
  have hB : ⌊|secs| / 3600⌋ = ⌊|secs| / 60⌋ / 60 :=
    floor_div_unit (n := 60) (by decide) (by norm_num)
  have hC : 0 ≤ ⌊|secs| / 60⌋ := Int.floor_nonneg.2 (by positivity)
  have hA' := floor_bounds (|secs| / 86400)
  have hB' := floor_bounds (|secs| / 3600)
  have hC' := floor_bounds (|secs| / 60)
  have hlo := @decimalMod_nonneg secs 60 (by norm_num)
  have hhi := @decimalMod_lt secs 60 (by norm_num)
  rw [decimalMod_abs (by norm_num)] at hlo hhi
  have hx := eq_plusMinus_mul secs
  rw [Clear] at hday' ⊢
  rw [Clear, Clear]
  generalize ⌊|secs| / 86400 + 10 ^ (-34 : ℤ) / 2⌋ = A' at *
  generalize ⌊|secs| / 3600 + 10 ^ (-34 : ℤ) / 2⌋ = B' at *
  generalize ⌊|secs| / 60 + 10 ^ (-34 : ℤ) / 2⌋ = C' at *
  generalize ⌊|secs| / 86400⌋ = A at *
  generalize ⌊|secs| / 3600⌋ = B at *
  generalize ⌊|secs| / 60⌋ = C at *
  constructor
  · intro h
    have hsum := h.sum
    rw [hhour, hmin, hsecond] at hsum
    have hz : days secs * 86400 + plusMinus secs *
        ((B' - 24 * A) * 3600 + (C' - 60 * B) * 60 - 60 * C) = 0 := by
      qify
      push_cast at hsum
      linarith
    clear hA hB
    rcases plusMinus_cases secs with ⟨he, -⟩ | ⟨he, -⟩ <;> rw [he] at hz hday <;> omega
  · rintro ⟨rfl, rfl, rfl⟩
    replace hday := hday' rfl
    have hsum : days secs * 86400 + hours secs * 3600 + minutes secs *
        60 + seconds secs = secs := by
      rw [hday, hhour, hmin, hsecond]
      push_cast
      linarith
    rcases plusMinus_cases secs with ⟨he, -, hle⟩ | ⟨he, -, hlt⟩ <;>
      rw [he] at hday hhour hmin hsecond <;>
      push_cast at hhour hmin hsecond
    · exact ⟨hsum, abs_lt.2 (by omega), abs_lt.2 (by omega), abs_lt.2 ⟨by linarith, by linarith⟩,
        fun _ => ⟨by omega, by omega, by omega, by linarith⟩, fun h => absurd h hle.not_gt⟩
    · exact ⟨hsum, abs_lt.2 (by omega), abs_lt.2 (by omega), abs_lt.2 ⟨by linarith, by linarith⟩,
        fun h => absurd hlt h.not_gt, fun _ => ⟨by omega, by omega, by omega, by linarith⟩⟩

end BlDaysTimeDuration

lemma BlYearsMonthsDuration.recombines_iff {total : ℚ}
    (hyears : 12 * (-2 ^ 63 - 1) < total ∧ total < 12 * 2 ^ 63) :
    Recombines total ↔ Clear 12 |total| := by
  have hmonth : months total = plusMinus total * (|total| - 12 * ⌊|total| / 12⌋) := by
    rw [months, decimalMod_abs (by norm_num), ite_neg_eq]
  obtain ⟨hyear, hyear'⟩ := whole_units (by norm_num) hyears
  rw [← years] at hyear hyear'
  have h0 : 0 ≤ ⌊|total| / 12⌋ := Int.floor_nonneg.2 (by positivity)
  have hround := floor_bounds (|total| / 12)
  have hlo := @decimalMod_nonneg total 12 (by norm_num)
  have hhi := @decimalMod_lt total 12 (by norm_num)
  rw [decimalMod_abs (by norm_num)] at hlo hhi
  have hx := eq_plusMinus_mul total
  rw [Clear] at hyear' ⊢
  generalize ⌊|total| / 12 + 10 ^ (-34 : ℤ) / 2⌋ = A' at *
  generalize ⌊|total| / 12⌋ = A at *
  constructor
  · intro h
    have hsum := h.sum
    rw [hmonth] at hsum
    have hz : years total * 12 - plusMinus total * (12 * A) = 0 := by
      qify
      linarith
    rcases plusMinus_cases total with ⟨he, -⟩ | ⟨he, -⟩ <;> rw [he] at hz hyear <;> omega
  · rintro rfl
    replace hyear := hyear' rfl
    have hsum : years total * 12 + months total = total := by
      rw [hyear, hmonth]
      push_cast
      linarith
    rcases plusMinus_cases total with ⟨he, -, hle⟩ | ⟨he, -, hlt⟩ <;> rw [he] at hyear hmonth <;>
      push_cast at hmonth
    · exact ⟨hsum, abs_lt.2 ⟨by linarith, by linarith⟩, fun _ => ⟨by omega, by linarith⟩,
        fun h => absurd h hle.not_gt⟩
    · exact ⟨hsum, abs_lt.2 ⟨by linarith, by linarith⟩, fun h => absurd hlt h.not_gt,
        fun _ => ⟨by omega, by linarith⟩⟩

/-- The parts are right just when none of the quotients is rounded up. -/
theorem durations_recombine_iff {secs total : ℚ}
    (hdays : 86400 * (-2 ^ 63 - 1) < secs ∧ secs < 86400 * 2 ^ 63)
    (hyears : 12 * (-2 ^ 63 - 1) < total ∧ total < 12 * 2 ^ 63) :
    (BlDaysTimeDuration.Recombines secs ↔ Clear 86400 |secs| ∧ Clear 3600 |secs| ∧
      Clear 60 |secs|) ∧
      (BlYearsMonthsDuration.Recombines total ↔ Clear 12 |total|) :=
  ⟨BlDaysTimeDuration.recombines_iff hdays, BlYearsMonthsDuration.recombines_iff hyears⟩

/-- A day, an hour, a minute and a second and a half, negative, and fourteen months. -/
theorem durations_recombine_sample :
    BlDaysTimeDuration.Recombines (-90061.5) ∧ BlYearsMonthsDuration.Recombines 14 := by
  have h := @durations_recombine_iff (-90061.5) 14 (by norm_num) (by norm_num)
  exact ⟨h.1.2 (by decide +kernel), h.2.2 (by decide +kernel)⟩

/-- A day less 10⁻³⁴ seconds has a day and 24 hours, and a year less 10⁻³⁴ months a year. -/
theorem almost_a_day : BlDaysTimeDuration.days (86400 - 1 / 10 ^ 34) = 1 ∧
    BlDaysTimeDuration.hours (86400 - 1 / 10 ^ 34) = 24 ∧
    BlYearsMonthsDuration.years (12 - 1 / 10 ^ 34) = 1 ∧
    0 < BlYearsMonthsDuration.months (12 - 1 / 10 ^ 34) := by
  decide +kernel

end Blkit
