import Blkit.Value.Number
import Mathlib.Order.Bounds.Basic

/-!
# Adding months

A month that many months away may be too short for the day, which is then its last one.  Two days
at the end of a month may so fall together, and then a later day with an earlier time of day comes
before the other.  Counting the months between two dates compares their days as they are, without
the shorter month and without the time of day.
-/

namespace Blkit

/-- `daysIn` of the time package. -/
def daysIn (year month : ℤ) : ℤ :=
  if month = 2 then if year % 4 = 0 ∧ (year % 100 ≠ 0 ∨ year % 400 = 0) then 29 else 28
  else if month = 4 ∨ month = 6 ∨ month = 9 ∨ month = 11 then 30 else 31

/-- What a `time.Time` in UTC shows: the date, and the nanoseconds since midnight. -/
structure Civil where
  year : ℤ
  month : ℤ
  day : ℤ
  nanos : ℤ
  month_range : 1 ≤ month ∧ month ≤ 12
  day_range : 1 ≤ day ∧ day ≤ daysIn year month
deriving DecidableEq

/-- `lastDayOf`: the day before the first of the next month. -/
def lastDayOf (year month : ℤ) : ℤ := daysIn year month

lemma daysIn_range (year month : ℤ) : 28 ≤ daysIn year month ∧ daysIn year month ≤ 31 := by
  rw [daysIn]
  repeat' split
  all_goals decide

namespace Civil

/-- The date so many months later: on the same day, or on the last one of a shorter month. -/
def plusMonths (t : Civil) (total : ℤ) : Civil :=
  let year := t.year + (t.month - 1 + total) / 12
  let month := (t.month - 1 + total) % 12 + 1
  ⟨year, month, min t.day (lastDayOf year month), t.nanos, by omega, by
    have := daysIn_range year month
    have := t.day_range.1
    simp only [lastDayOf]
    omega⟩

end Civil

/-! ## The code -/

/-- What a Go `int` holds. -/
def goInt (z : ℤ) : ℤ := z.bmod (2 ^ 64)

/-- The years in which a `time.Time` can show every day: its seconds are counted in 64 bits. -/
def SupportedYear (year : ℤ) : Prop := -292277022398 ≤ year ∧ year ≤ 292277024626

instance (year : ℤ) : Decidable (SupportedYear year) := inferInstanceAs (Decidable (_ ∧ _))

/-- The year and the month that `addMonthsClamped` computes. -/
def targetMonth (year month totalMonths : ℤ) : ℤ × ℤ :=
  let base := goInt (month - 1 + totalMonths)
  let ny := goInt (year + base.tdiv 12)
  let nm := base.tmod 12 + 1
  if nm ≤ 0 then (goInt (ny - 1), nm + 12) else (ny, nm)

lemma targetMonth_range (year month total : ℤ) :
    1 ≤ (targetMonth year month total).2 ∧ (targetMonth year month total).2 ≤ 12 := by
  have h12 : Int.sign 12 = 1 := rfl
  simp only [targetMonth, Int.tmod_eq_emod]
  split <;> split <;> constructor <;> omega

/-- `addMonthsClamped`.  What `time.Date` makes of other years, where its seconds overflow, is
left open. -/
def addMonthsClamped (overflow : Civil → ℤ × ℤ → Civil) (t : Civil) (months : ℚ) : Civil :=
  let target := targetMonth t.year t.month (intPart (truncate 0 months))
  let last := lastDayOf target.1 target.2
  if SupportedYear target.1 then
    ⟨target.1, target.2, if t.day > last then last else t.day, t.nanos, targetMonth_range _ _ _, by
      have := daysIn_range target.1 target.2
      have := t.day_range.1
      simp only [last, lastDayOf]
      split <;> omega⟩
  else overflow t target

def wholeMonthsBetween (a b : Civil) : ℤ :=
  let months := (b.year - a.year) * 12 + (b.month - a.month)
  if months > 0 ∧ b.day < a.day then months - 1
  else if months < 0 ∧ b.day > a.day then months + 1
  else months

namespace Civil

/-- Months since the year 0. -/
def index (t : Civil) : ℤ := t.year * 12 + (t.month - 1)

/-- The order of dates. -/
def dateLE (a b : Civil) : Prop := a.index < b.index ∨ a.index = b.index ∧ a.day ≤ b.day

/-- The order of instants. -/
protected def le (a b : Civil) : Prop :=
  a.index < b.index ∨ a.index = b.index ∧ (a.day < b.day ∨ a.day = b.day ∧ a.nanos ≤ b.nanos)

/-- In the month so many months away, on the same day or on the last one before, at the same time of
day. -/
structure IsMonthsLater (t : Civil) (m : ℤ) (r : Civil) : Prop where
  index : r.index = t.index + m
  day : r.day = min t.day (lastDayOf r.year r.month)
  nanos : r.nanos = t.nanos

lemma plusMonths_spec (t : Civil) (m : ℤ) : t.IsMonthsLater m (t.plusMonths m) := by
  refine ⟨?_, rfl, rfl⟩
  simp only [index, plusMonths]
  omega

/-- The date and the month so many months later are in supported years. -/
def StaysSupported (t : Civil) (m : ℤ) : Prop :=
  SupportedYear t.year ∧ SupportedYear ((t.index + m) / 12)

instance (t : Civil) (m : ℤ) : Decidable (t.StaysSupported m) :=
  inferInstanceAs (Decidable (_ ∧ _))

/-- Where no year is out of range, nothing overflows. -/
lemma addMonthsClamped_eq {t : Civil} {m : ℤ} (h : t.StaysSupported m)
    (overflow : Civil → ℤ × ℤ → Civil) : addMonthsClamped overflow t m = t.plusMonths m := by
  have hmonth := t.month_range
  simp only [StaysSupported, SupportedYear, index] at h
  have hgo {z : ℤ} (hz : -2 ^ 63 ≤ z ∧ z < 2 ^ 63) : goInt z = z := (bmod_eq_self_iff z).2 hz
  have htotal : intPart (truncate 0 (m : ℚ)) = m := by
    rw [intPart_truncate]
    exact hgo (by omega)
  have htarget : targetMonth t.year t.month m =
      (t.year + (t.month - 1 + m) / 12, (t.month - 1 + m) % 12 + 1) := by
    have h12 : Int.sign 12 = 1 := rfl
    have hbase : goInt (t.month - 1 + m) = t.month - 1 + m := hgo (by omega)
    have hquot := Int.tdiv_eq_ediv (a := t.month - 1 + m) (b := 12)
    have hny : goInt (t.year + (t.month - 1 + m).tdiv 12) = t.year + (t.month - 1 + m).tdiv 12 :=
      hgo (by split at hquot <;> omega)
    simp only [targetMonth, hbase, hny]
    rw [hgo (by split at hquot <;> omega), hquot, Int.tmod_eq_emod]
    split <;> split <;> simp only [Prod.mk.injEq] <;> omega
  have hsupported : SupportedYear (t.year + (t.month - 1 + m) / 12) := by
    simp only [SupportedYear]
    omega
  simp only [addMonthsClamped, htotal, htarget, if_pos hsupported, plusMonths, Civil.mk.injEq,
    true_and, and_true]
  split <;> omega

/-- Months of the same number have the same last day. -/
lemma lastDayOf_congr {a b : Civil} (h : a.index = b.index) : lastDayOf a.year a.month =
    lastDayOf b.year b.month := by
  have ha := a.month_range
  have hb := b.month_range
  rw [index, index] at h
  rw [show a.year = b.year by omega, show a.month = b.month by omega]

end Civil

open Civil

variable {a b : Civil}

/-- As long as the years are supported, the month, the day and the time of day are right, and
dates stay in order; so do datetimes with one time of day. -/
theorem addMonths_correct {m : ℤ} (ha : a.StaysSupported m) (hb : b.StaysSupported m)
    (overflow : Civil → ℤ × ℤ → Civil) :
    a.IsMonthsLater m (addMonthsClamped overflow a m) ∧
      (a.dateLE b → (addMonthsClamped overflow a m).dateLE (addMonthsClamped overflow b m)) ∧
      (a.nanos = b.nanos → a.le b →
        (addMonthsClamped overflow a m).le (addMonthsClamped overflow b m)) := by
  rw [addMonthsClamped_eq ha, addMonthsClamped_eq hb]
  have hlast := fun h => lastDayOf_congr (a := a.plusMonths m) (b := b.plusMonths m) h
  obtain ⟨hai, had, han⟩ := plusMonths_spec a m
  obtain ⟨hbi, hbd, hbn⟩ := plusMonths_spec b m
  refine ⟨⟨hai, had, han⟩, ?_, ?_⟩
  · rw [dateLE, dateLE]
    omega
  · rw [Civil.le, Civil.le]
    omega

/-- 31 January 2025, at a time of day. -/
def lastOfJanuary (nanos : ℤ) : Civil := ⟨2025, 1, 31, nanos, by decide, by decide⟩

/-- 29 February 2024, at a time of day. -/
def leapDay (nanos : ℤ) : Civil := ⟨2024, 2, 29, nanos, by decide, by decide⟩

/-- A leap day and the last of a January, 37 months before. -/
theorem addMonths_january :
    (leapDay 5).IsMonthsLater (-37) (addMonthsClamped (fun t _ => t) (leapDay 5) (-37 : ℤ)) ∧
    (addMonthsClamped (fun t _ => t) (leapDay 5) (-37 : ℤ)).dateLE
      (addMonthsClamped (fun t _ => t) (lastOfJanuary 3) (-37 : ℤ)) :=
  have h := addMonths_correct (a := leapDay 5) (b := lastOfJanuary 3) (m := -37)
    (by decide) (by decide) fun t _ => t
  ⟨h.1, h.2.1 (.inl (by decide))⟩

/-- 30 January at 23:00 is before 31 January at 1:00; a month later it is the other way round. -/
theorem months_later_out_of_order : ∃ a b : Civil, a.StaysSupported 1 ∧ b.StaysSupported 1 ∧
    a.le b ∧ ∀ overflow,
      ¬ (addMonthsClamped overflow a (1 : ℤ)).le (addMonthsClamped overflow b (1 : ℤ)) := by
  refine ⟨⟨2025, 1, 30, 82800000000000, by decide, by decide⟩, lastOfJanuary 3600000000000,
    by decide, by decide, .inr ⟨rfl, .inl (by decide)⟩, fun overflow => ?_⟩
  rw [addMonthsClamped_eq (by decide), addMonthsClamped_eq (by decide), Civil.le]
  decide

/-! ## Months between -/

lemma plusMonths_le_iff (m : ℤ) : (a.plusMonths m).le b ↔ a.index + m < b.index ∨
    a.index + m = b.index ∧
    (min a.day (lastDayOf b.year b.month) < b.day ∨
      min a.day (lastDayOf b.year b.month) = b.day ∧ a.nanos ≤ b.nanos) := by
  obtain ⟨hi, hd, hn⟩ := plusMonths_spec a m
  have hlast := fun h => lastDayOf_congr (a := a.plusMonths m) (b := b) h
  rw [Civil.le]
  omega

/-- The number of months is the greatest just when comparing the days comes to the same as comparing
the day in the shorter month, and the time of day. -/
theorem monthsBetween_iff (h : a.le b) :
    (IsGreatest {m | (a.plusMonths m).le b} (wholeMonthsBetween a b) ↔
      (a.index < b.index → (a.day ≤ b.day ↔ min a.day (lastDayOf b.year b.month) < b.day ∨
        min a.day (lastDayOf b.year b.month) = b.day ∧ a.nanos ≤ b.nanos))) ∧
      wholeMonthsBetween b a = -wholeMonthsBetween a b := by
  have hdiff (a b : Civil) : (b.year - a.year) * 12 + (b.month - a.month) = b.index - a.index := by
    rw [Civil.index, Civil.index]
    ring
  constructor
  · have hle : a.index ≤ b.index := by
      rw [Civil.le] at h
      omega
    -- in one month the day is not cut off
    have hw : wholeMonthsBetween a b =
        if a.index < b.index ∧ b.day < a.day then b.index - a.index - 1 else b.index - a.index := by
      rw [wholeMonthsBetween, hdiff]
      repeat' split
      all_goals omega
    have hset : {m | (a.plusMonths m).le b} =
        Set.Iic (if min a.day (lastDayOf b.year b.month) < b.day ∨
        min a.day (lastDayOf b.year b.month) = b.day ∧ a.nanos ≤ b.nanos then b.index - a.index
        else b.index - a.index - 1) := by
      ext m
      rw [Set.mem_Iic]
      refine (plusMonths_le_iff m).trans ?_
      split <;> rename_i hP
      · simp only [hP, and_true]
        omega
      · simp only [hP, and_false, or_false]
        omega
    have hgreatest (k w : ℤ) : IsGreatest (Set.Iic k) w ↔ w = k :=
      ⟨fun h => h.unique isGreatest_Iic, fun h => h ▸ isGreatest_Iic⟩
    rw [Civil.le] at h
    rw [hset, hw, hgreatest]
    split <;> split <;> omega
  · rw [wholeMonthsBetween, wholeMonthsBetween, hdiff, hdiff]
    repeat' split
    all_goals omega

/-- From the leap day to the last of the January after it, there and back. -/
theorem monthsBetween_january : (leapDay 0).le (lastOfJanuary 0) ∧
    wholeMonthsBetween (lastOfJanuary 0) (leapDay 0) =
      -wholeMonthsBetween (leapDay 0) (lastOfJanuary 0) :=
  have h : (leapDay 0).le (lastOfJanuary 0) := .inl (by decide)
  ⟨h, (monthsBetween_iff h).2⟩

/-- No month from 31 January to 28 February, which is one month later. -/
theorem no_month_to_february : ∃ a b : Civil, a.le b ∧ wholeMonthsBetween a b = 0 ∧
    (a.plusMonths 1).le b := by
  refine ⟨lastOfJanuary 0, ⟨2025, 2, 28, 0, by decide, by decide⟩, .inl (by decide), by decide, ?_⟩
  rw [plusMonths_le_iff]
  decide

end Blkit
