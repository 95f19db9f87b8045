import Blkit.Control.Fuel
import Blkit.Expr.Eval
import Mathlib.Data.Int.Log
import Mathlib.Tactic.Linarith

/-!
# Numbers

Division keeps 34 decimal places, not 34 significant digits, and rounds at place 36 before it cuts
off.  A sequence is as long as it should be.
-/

namespace Blkit

open BlValue Fallible

/-- `Truncate` of the decimal package: negative places leave a number as it is. -/
def truncate (places : ℤ) (d : ℚ) : ℚ :=
  if 0 ≤ places then (d * 10 ^ places).num.tdiv (d * 10 ^ places).den / 10 ^ places else d

lemma intPart_truncate (z : ℤ) : intPart (truncate 0 z) = z.bmod (2 ^ 64) := by
  rw [truncate, if_pos le_rfl, zpow_zero, mul_one, div_one, Rat.num_intCast,
    Rat.den_intCast, Nat.cast_one,
    Int.tdiv_one, intPart_intCast]

/-! ## Division -/

def numericPrecision : ℕ := 34

/-- The sign that a magnitude is given back. -/
def sgn (q : ℚ) : ℚ := if q < 0 then -1 else 1

/-- `DivRound` of the decimal package, which takes numbers in the middle away from zero. -/
def divRound (a b : ℚ) (places : ℕ) : ℚ :=
  sgn (a / b) * (⌊|a / b| * 10 ^ places + 1 / 2⌋ / 10 ^ places)

def divNumbers (a b : ℚ) : BlValue :=
  if b = 0 then .null else .number (truncate numericPrecision (divRound a b (numericPrecision + 2)))

/-- A number truncated toward zero to so many significant digits. -/
def significant (digits : ℤ) (q : ℚ) : ℚ :=
  let unit := 10 ^ (Int.log 10 |q| + 1 - digits)
  sgn q * (⌊|q| / unit⌋ * unit)

variable {a b q x y : ℚ}

lemma sgn_mul_inj : sgn q * x = sgn q * y ↔ x = y := by
  rw [sgn]
  split <;> simp

lemma abs_sgn_mul (hx : 0 ≤ x) : |sgn q * x| = x := by
  rw [sgn]
  split <;> simp [abs_of_nonneg hx]

lemma truncate_sgn_mul (hx : 0 ≤ x) {p : ℕ} : truncate p (sgn q * x) = sgn q *
    (⌊x * 10 ^ p⌋ / 10 ^ p) := by
  have hfloor : (x * 10 ^ p).num.tdiv (x * 10 ^ p).den = ⌊x * 10 ^ p⌋ := by
    rw [Rat.floor_def', Int.tdiv_eq_ediv_of_nonneg (Rat.num_nonneg.2 (by positivity))]
  rw [truncate, if_pos (Int.natCast_nonneg p), zpow_natCast, sgn]
  split
  · rw [neg_one_mul, neg_one_mul, neg_mul, Rat.neg_num, Rat.neg_den, Int.neg_tdiv,
      hfloor, Int.cast_neg, neg_div]
  · rw [one_mul, one_mul, hfloor]

/-- Rounded at place 36, cut off at place 34. -/
lemma divNumbers_eq (hb : b ≠ 0) :
    divNumbers a b =
      .number (sgn (a / b) * (⌊(|a / b| + 1 / 10 ^ 36 / 2) * 10 ^ 34⌋ / 10 ^ 34)) := by
  have hshift (n : ℤ) : (n : ℚ) / 10 ^ (34 + 2) * 10 ^ 34 = n / (100 : ℕ) := by
    norm_num
    ring
  have hfloor : ⌊(⌊|a / b| * 10 ^ (34 + 2) + 1 / 2⌋ : ℚ) / (100 : ℕ)⌋ =
      ⌊(|a / b| + 1 / 10 ^ 36 / 2) * 10 ^ 34⌋ := by
    rw [Int.floor_div_natCast, Int.floor_intCast, ← Int.floor_div_natCast]
    congr 1
    norm_num
    ring
  rw [divNumbers, if_neg hb, divRound, numericPrecision,
    truncate_sgn_mul (by positivity), hshift, hfloor]

/-- A quotient is cut off after 34 significant digits just when what is left then ends within 34
places, and the quotient is not so near to the next multiple that it is rounded up to it. -/
theorem division_truncates_iff (hb : b ≠ 0) : divNumbers a b = .number (significant 34 (a / b)) ↔
      (∃ k : ℤ, |significant 34 (a / b)| = k / 10 ^ 34) ∧
        |a / b| + 1 / 10 ^ 36 / 2 < |significant 34 (a / b)| + 1 / 10 ^ 34 := by
  rw [divNumbers_eq hb, number.injEq, significant]
  have hunit : (0 : ℚ) < 10 ^ (Int.log 10 |a / b| + 1 - 34) := zpow_pos (by norm_num) _
  generalize (10 : ℚ) ^ (Int.log 10 |a / b| + 1 - 34) = unit at *
  have hle := (le_div_iff₀ hunit).1 (Int.floor_le (|a / b| / unit))
  rw [abs_sgn_mul (by positivity), sgn_mul_inj]
  generalize ⌊|a / b| / unit⌋ * unit = t at *
  constructor
  · rintro rfl
    have := Int.lt_floor_add_one ((|a / b| + 1 / 10 ^ 36 / 2) * 10 ^ 34)
    exact ⟨⟨_, rfl⟩, by linarith⟩
  · rintro ⟨⟨k, rfl⟩, hlt⟩
    congr 2
    exact Int.floor_eq_iff.2 ⟨by linarith, by linarith⟩

/-- Two thirds are cut off after 34 digits. -/
theorem division_of_two_thirds : (3 : ℚ) ≠ 0 ∧
    divNumbers 2 3 = .number (significant 34 (2 / 3)) := by
  have hthree : (3 : ℚ) ≠ 0 := by decide +kernel
  refine ⟨hthree, (division_truncates_iff hthree).2 ⟨⟨6666666666666666666666666666666666, ?_⟩, ?_⟩⟩
  all_goals decide +kernel

/-- A quotient of one digit is lost, and another is larger than it should be. -/
theorem division_not_significant : divNumbers 1 (10 ^ 40) = .number 0 ∧
    significant 34 (1 / 10 ^ 40) = 1 / 10 ^ 40 ∧
      divNumbers (10 ^ 40 - 1) (10 ^ 40) = .number 1 ∧ ((10 : ℚ) ^ 40 - 1) / 10 ^ 40 < 1 := by
  refine ⟨(if_neg (by norm_num)).trans (congrArg number ?_), ?_,
    (if_neg (by norm_num)).trans (congrArg number ?_), ?_⟩
  all_goals decide +kernel

/-! ## Sequences -/

/-- The loop of `seqFn`, with what has been listed. -/
def seqRound (asc : Bool) (stop step : ℚ) : ℚ × List BlValue → Run (List BlValue ⊕ ℚ × List BlValue)
  | (cur, out) =>
    if !asc || cur ≤ stop then
      if !asc && cur < stop then .ok (.inl out)
      else .ok (.inr (if asc then cur + step else cur - step, out ++ [.number cur]))
    else .ok (.inl out)

/-- `seqFn`; the call sites see to it that there are two or three arguments. -/
def seqFn (fuel : ℕ) (start stop : BlValue) (step : Option BlValue) : Run (Result BlValue) :=
  match start, stop with
  | .number start, .number stop =>
    let numbers (step : ℚ) : Run (Result BlValue) := do
      let out ← loop (seqRound (start ≤ stop) stop step) fuel (start, [])
      pure (.ok (.list out))
    match step with
    | none => numbers 1
    | some (.number s) =>
      if s = 0 then pure (.error (.typeError "seq" "step must be non-zero")) else numbers |s|
    | some v => pure (.error v.argTypeError)
  | _, _ => pure (.error (.typeError "seq" "start/end must be numbers"))

/-- The number so many steps from `start` toward `stop`. -/
def stepped (start stop step : ℚ) (k : ℕ) : ℚ :=
  if start ≤ stop then start + k * step else start - k * step

/-- So many numbers from `start` on. -/
def listed (start stop step : ℚ) (n : ℕ) : List BlValue :=
  (List.range n).map fun k => .number (stepped start stop step k)

/-- The end has not been passed. -/
def Within (start stop x : ℚ) : Prop := if start ≤ stop then x ≤ stop else stop ≤ x

variable {start stop d : ℚ}

lemma within_iff (hd : 0 < d) (k : ℕ) :
    Within start stop (stepped start stop d k) ↔ k ≤ ⌊|stop - start| / d⌋₊ := by
  rw [Nat.le_floor_iff (by positivity), le_div_iff₀ hd, stepped, Within]
  split
  · rw [abs_of_nonneg (by linarith)]
    constructor <;> intro h <;> linarith
  · rw [abs_of_neg (by linarith)]
    constructor <;> intro h <;> linarith

/-- A round adds a number that has not passed the end. -/
lemma seqRound_listed (k : ℕ) [Decidable (Within start stop (stepped start stop d k))] :
    seqRound (start ≤ stop) stop d (stepped start stop d k, listed start stop d k) =
      .ok (if Within start stop (stepped start stop d k) then
        .inr (stepped start stop d (k + 1), listed start stop d (k + 1)) else
          .inl (listed start stop d k)) := by
  rw [seqRound, listed, listed, List.range_succ, List.map_append]
  by_cases hle : start ≤ stop
  · by_cases hk : start + k * d ≤ stop <;> simp [Within, stepped, hle, hk, add_mul, add_assoc]
  · by_cases hk : stop ≤ start - k * d
    · simp [Within, stepped, hle, hk, hk.not_gt, add_mul, sub_sub]
    · simp [Within, stepped, hle, hk, not_le.1 hk]

/-- A sequence ends, and lists the numbers up to the last one that does not pass the end. -/
theorem seq_lists {step : Option BlValue}
    (hstep : step = none ∧ d = 1 ∨ ∃ s, s ≠ 0 ∧ step = some (.number s) ∧ d = |s|) :
    let last := ⌊|stop - start| / d⌋₊
    Halts (fun fuel => seqFn fuel (.number start) (.number stop) step)
        (· = .ok (.list (listed start stop d (last + 1)))) ∧
      Within start stop (stepped start stop d last) ∧
        ¬ Within start stop (stepped start stop d (last + 1)) := by
  intro last
  have hd : 0 < d := by
    rcases hstep with ⟨-, rfl⟩ | ⟨s, hs, -, rfl⟩
    · exact one_pos
    · exact abs_pos.2 hs
  refine ⟨?_, (within_iff hd _).2 le_rfl, fun h => Nat.not_succ_le_self _ ((within_iff hd _).1 h)⟩
  have hfn : (fun fuel => seqFn fuel (.number start) (.number stop) step) = fun fuel =>
      loop (seqRound (start ≤ stop) stop d) fuel (start, []) >>= fun out =>
        pure (.ok (.list out)) := by
    rcases hstep with ⟨rfl, rfl⟩ | ⟨s, hs, rfl, rfl⟩
    · rfl
    · simp only [seqFn, if_neg hs]
  rw [hfn]
  refine Halts.bind (P := (· = listed start stop d (last + 1))) ?_ fun out hout =>
    Halts.pure (by rw [hout])
  -- before each round the numbers up to the one in hand are listed
  refine Halts.loop (fun a => ∃ k ≤ last + 1, a = (stepped start stop d k, listed start stop d k))
    (fun a => last + 1 - a.2.length) ?_ _ ⟨0, Nat.zero_le _, by simp [stepped, listed]⟩
  rintro _ ⟨k, hk, rfl⟩
  classical
  refine ⟨_, seqRound_listed k, ?_⟩
  rcases hk.lt_or_eq with hlt | rfl
  · rw [if_pos ((within_iff hd k).2 (Nat.le_of_lt_succ hlt))]
    refine ⟨⟨k + 1, hlt, rfl⟩, ?_⟩
    simp only [listed, List.length_map, List.length_range]
    omega
  · rw [if_neg fun h => Nat.not_succ_le_self _ ((within_iff hd _).1 h)]
    rfl

/-- 1, 2. -/
theorem seq_lists_one_to_two : Halts (fun fuel => seqFn fuel (.number 1) (.number 2) none)
      (· = .ok (.list (listed 1 2 1 (⌊|(2 : ℚ) - 1| / 1⌋₊ + 1)))) :=
  (seq_lists (.inl ⟨rfl, rfl⟩)).1

end Blkit
