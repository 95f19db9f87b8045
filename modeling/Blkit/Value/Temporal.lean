import Blkit.Value.Number
import Blkit.Value.Order
import Mathlib.Tactic.Qify

/-!
# Arithmetic of datetimes and times of day

The difference of two datetimes is exact, and adding a duration goes through an `int64` of
nanoseconds.  Times of day are moved by whole seconds only: fractions of a second are dropped from
each duration that is added.
-/

namespace Blkit

open BlValue

/-! ## Datetimes -/

def decimalSecondsBetween (start stop : GoTime) : ℚ :=
  (stop.unixNano / 10 ^ 9 - start.unixNano / 10 ^ 9 : ℤ) +
    (stop.unixNano % 10 ^ 9 - start.unixNano % 10 ^ 9 : ℤ) / 10 ^ 9

/-- `addDateTimeDT`; `zone` is the offset of the location at an instant. -/
def addDateTimeDT (zone : ℤ → ℤ) (t : GoTime) (secs : ℚ) : GoTime :=
  let nanos := intPart (truncate 0 (secs * 10 ^ 9))
  ⟨t.unixNano + nanos, zone (t.unixNano + nanos)⟩

def subDateTimes (a : GoTime) (naive : Bool) (b : GoTime) (naive' : Bool) : BlValue :=
  if naive ≠ naive' then .null else .daysTimeDuration (decimalSecondsBetween b a)

lemma decimalSecondsBetween_eq (a b : GoTime) :
    decimalSecondsBetween a b = ((b.unixNano - a.unixNano : ℤ) : ℚ) / 10 ^ 9 := by
  have ha := Int.mul_ediv_add_emod a.unixNano (10 ^ 9)
  have hb := Int.mul_ediv_add_emod b.unixNano (10 ^ 9)
  qify at ha hb
  rw [decimalSecondsBetween]
  push_cast
  linarith

/-- Differences and sums undo each other just when the nanoseconds between fit. -/
theorem datetime_arithmetic_iff (zone : ℤ → ℤ) (naive : Bool) (a b : GoTime) {d : ℚ}
    {n : ℤ} (hd : d = n / 10 ^ 9) :
    ((∃ secs, subDateTimes b naive a naive = .daysTimeDuration secs ∧
      (addDateTimeDT zone a secs).unixNano = b.unixNano) ↔
      -2 ^ 63 ≤ b.unixNano - a.unixNano ∧ b.unixNano - a.unixNano < 2 ^ 63) ∧
    (subDateTimes (addDateTimeDT zone a d) naive a naive = .daysTimeDuration d ↔
      -2 ^ 63 ≤ n ∧ n < 2 ^ 63) := by
  have hadd (m : ℤ) : (addDateTimeDT zone a (m / 10 ^ 9)).unixNano =
      a.unixNano + m.bmod (2 ^ 64) := by
    rw [addDateTimeDT, div_mul_cancel₀ _ (by norm_num), intPart_truncate]
  constructor
  · rw [← bmod_eq_self_iff]
    simp only [subDateTimes, ne_eq, not_true, if_false, daysTimeDuration.injEq, exists_eq_left',
      decimalSecondsBetween_eq, hadd]
    omega
  · rw [← bmod_eq_self_iff, subDateTimes, if_neg (not_not.2 rfl), daysTimeDuration.injEq,
      decimalSecondsBetween_eq, hd,
      hadd, add_sub_cancel_left, div_left_inj' (by norm_num), Int.cast_inj]

/-- One second after 1970. -/
theorem datetime_arithmetic_second :
    ((1 : ℚ) = (10 ^ 9 : ℤ) / 10 ^ 9) ∧
      (subDateTimes (addDateTimeDT (fun _ => 0) ⟨0, 0⟩ 1) true ⟨0, 0⟩ true = .daysTimeDuration 1 ↔
        -2 ^ 63 ≤ (10 ^ 9 : ℤ) ∧ (10 ^ 9 : ℤ) < 2 ^ 63) :=
  ⟨by norm_num, (datetime_arithmetic_iff (fun _ => 0) true ⟨0, 0⟩ ⟨0, 0⟩ (by norm_num)).2⟩

/-- From the year 1 it is too far to 1970. -/
theorem too_far : ∃ secs, subDateTimes ⟨0, 0⟩ true ⟨-62135596800000000000, 0⟩ true =
    .daysTimeDuration secs ∧
    (addDateTimeDT (fun _ => 0) ⟨-62135596800000000000, 0⟩ secs).unixNano ≠ 0 :=
  ⟨_, rfl, by decide +kernel⟩

/-! ## Times of day -/

/-- All times are on the first day of the year 0. -/
def timeEpoch : ℤ := -719528 * dayNanos

/-- `normaliseTimeDate`, in a location with one offset. -/
def normaliseTimeDate (t : GoTime) : GoTime :=
  ⟨timeEpoch + t.wall % dayNanos - t.offset * 10 ^ 9, t.offset⟩

def addTimeDur (t : GoTime) (secs : ℚ) : GoTime :=
  normaliseTimeDate ⟨t.unixNano + (intPart secs).tmod 86400 * 10 ^ 9, t.offset⟩

def subTimeDur (t : GoTime) (secs : ℚ) : GoTime := addTimeDur t (-secs)

/-- A naive time of day. -/
def TimeOfDay (t : GoTime) : Prop :=
  t.offset = 0 ∧ timeEpoch ≤ t.unixNano ∧ t.unixNano < timeEpoch + dayNanos

/-- Durations move a time around the clock. -/
structure ClockLaws (t : GoTime) (d e : ℚ) (days : ℤ) : Prop where
  zero : addTimeDur t 0 = t
  add : addTimeDur (addTimeDur t d) e = addTimeDur t (d + e)
  wholeDays : addTimeDur t (86400 * days) = t
  sub : subTimeDur (addTimeDur t d) d = t

/-- What has to hold of the seconds that are taken from the durations. -/
def WholeSeconds (d e : ℚ) (days : ℤ) : Prop :=
  86400 ∣ intPart d + intPart e - intPart (d + e) ∧ 86400 ∣ intPart (86400 * days) ∧
    86400 ∣ intPart d + intPart (-d)

lemma addTimeDur_eq {t : GoTime} (ht : t.offset = 0) (d : ℚ) :
    addTimeDur t d = ⟨timeEpoch + (t.unixNano + intPart d * 10 ^ 9) % dayNanos, 0⟩ := by
  have := Int.mul_tdiv_add_tmod (intPart d) 86400
  simp only [addTimeDur, normaliseTimeDate, GoTime.wall, ht, timeEpoch, dayNanos,
    GoTime.mk.injEq, and_true]
  omega

/-- The laws hold just when whole seconds add up, as they do for durations of whole seconds that are
not too long. -/
theorem clock_laws_iff {t : GoTime} (ht : TimeOfDay t) (d e : ℚ) (days : ℤ) :
    (ClockLaws t d e days ↔ WholeSeconds d e days) ∧
      ∀ m n : ℤ, d = m → e = n → |m| < 2 ^ 62 → |n| < 2 ^ 62 → |days| < 2 ^ 46 →
      WholeSeconds d e days := by
  obtain ⟨u, o⟩ := t
  obtain ⟨rfl, hlo, hhi⟩ : o = 0 ∧ timeEpoch ≤ u ∧ u < timeEpoch + dayNanos := ht
  constructor
  · have hself (m : ℤ) : (⟨timeEpoch + (u + m * 10 ^ 9) % dayNanos, 0⟩ : GoTime) =
        ⟨u, 0⟩ ↔ 86400 ∣ m := by
      simp only [GoTime.mk.injEq, and_true, timeEpoch, dayNanos] at *
      omega
    have htwice (d e : ℚ) : addTimeDur (addTimeDur ⟨u, 0⟩ d) e =
        ⟨timeEpoch + (u + (intPart d + intPart e) * 10 ^ 9) % dayNanos, 0⟩ := by
      rw [addTimeDur_eq rfl, addTimeDur_eq rfl]
      simp only [GoTime.mk.injEq, and_true, timeEpoch, dayNanos]
      omega
    have hzero : intPart 0 = 0 := by simp [intPart]
    constructor
    · rintro ⟨-, hadd, hdays, hsub⟩
      rw [subTimeDur, htwice, hself] at hsub
      rw [addTimeDur_eq rfl, hself] at hdays
      refine ⟨?_, hdays, hsub⟩
      rw [htwice, addTimeDur_eq rfl, GoTime.mk.injEq] at hadd
      simp only [and_true, dayNanos] at hadd
      omega
    · rintro ⟨hadd, hdays, hsub⟩
      refine ⟨?_, ?_, ?_, ?_⟩
      · rw [addTimeDur_eq rfl, hself, hzero]
        exact dvd_zero _
      · rw [htwice, addTimeDur_eq rfl, GoTime.mk.injEq]
        simp only [and_true, dayNanos]
        omega
      · rwa [addTimeDur_eq rfl, hself]
      · rwa [subTimeDur, htwice, hself]
  · rintro m n rfl rfl hm hn hk
    rw [abs_lt] at hm hn hk
    rw [WholeSeconds, show (86400 : ℚ) * days =
      (86400 * days : ℤ) by push_cast; rfl, ← Int.cast_add, ← Int.cast_neg]
    simp only [intPart_intCast]
    rw [(bmod_eq_self_iff _).2 (by omega), (bmod_eq_self_iff _).2 (by omega),
      (bmod_eq_self_iff _).2 (by omega),
      (bmod_eq_self_iff _).2 (by omega), (bmod_eq_self_iff _).2 (by omega)]
    omega

/-- 10:00:00 and a second. -/
theorem clock_laws_ten : TimeOfDay tenOClock ∧ (ClockLaws tenOClock 1 1 1 ↔ WholeSeconds 1 1 1) :=
  have h : TimeOfDay tenOClock := ⟨rfl, by decide, by decide⟩
  ⟨h, (clock_laws_iff h 1 1 1).1⟩

/-- Half a second twice is not a second. -/
theorem half_seconds_lost :
    equalTime (addTimeDur (addTimeDur tenOClock (1 / 2)) (1 / 2))
      (addTimeDur tenOClock (1 / 2 + 1 / 2)) true = false := by
  decide +kernel

end Blkit
