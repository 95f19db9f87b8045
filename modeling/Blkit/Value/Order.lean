import Blkit.Value.Equal
import Mathlib.Data.Prod.Lex
import Mathlib.Data.Sum.Order
import Mathlib.Data.String.Basic
import Mathlib.Order.Compare

/-!
# Ordering values

`compareValues` orders values of one kind, temporals of one zone kind, by what they hold;
`=` goes through `Equal` instead.  On naive times the two look at different things: `Equal`
reads the clock to the second, `compareValues` to the nanosecond.
-/

namespace Blkit

namespace BlValue

/-- `compareValues`: nothing for operands that cannot be compared. -/
def compareValues : BlValue → BlValue → Option Ordering
  | .number a, .number b => some (cmp a b)
  | .string a, .string b => some (cmp a b)
  | .date t n, .date u m
  | .dateTime t n, .dateTime u m
  | .time t n, .time u m => if n = m then some (cmp t.unixNano u.unixNano) else none
  | .daysTimeDuration a, .daysTimeDuration b => some (cmp a b)
  | .yearsMonthsDuration a, .yearsMonthsDuration b => some (cmp a b)
  | _, _ => none

/-- `opOrder`. -/
def opOrder (pick : Ordering → Bool) (a b : BlValue) : BlValue :=
  if a.isNull || b.isNull then .null
  else match compareValues a b with
    | some c => .boolean (pick c)
    | none => .null

def opLt : BlValue → BlValue → BlValue := opOrder (· == .lt)

def opLe : BlValue → BlValue → BlValue := opOrder (· != .gt)

def opGt : BlValue → BlValue → BlValue := opOrder (· == .gt)

def opGe : BlValue → BlValue → BlValue := opOrder (· != .lt)

def opEq (a b : BlValue) : BlValue := if a.isNull || b.isNull then .boolean false else a.equal b

/-! ## One linear order for all values that can be compared -/

/-- Values of the same comparable kind, temporals both naive or both zoned. -/
inductive SameDomain : BlValue → BlValue → Prop
  | number (x y : ℚ) : SameDomain (.number x) (.number y)
  | string (x y : String) : SameDomain (.string x) (.string y)
  | date (t u : GoTime) (naive : Bool) : SameDomain (.date t naive) (.date u naive)
  | dateTime (t u : GoTime) (naive : Bool) : SameDomain (.dateTime t naive) (.dateTime u naive)
  | time (t u : GoTime) (naive : Bool) : SameDomain (.time t naive) (.time u naive)
  | daysTimeDuration (x y : ℚ) : SameDomain (.daysTimeDuration x) (.daysTimeDuration y)
  | yearsMonthsDuration (x y : ℚ) : SameDomain (.yearsMonthsDuration x) (.yearsMonthsDuration y)

/-- Where a value stands among the values of its domain. -/
def place : BlValue → ℚ ⊕ₗ String
  | .number a | .daysTimeDuration a | .yearsMonthsDuration a => toLex (.inl a)
  | .string s => toLex (.inr s)
  | .date t _ | .dateTime t _ | .time t _ => toLex (.inl t.unixNano)
  | _ => toLex (.inl 0)

variable {a b c : BlValue}

lemma SameDomain.symm (h : SameDomain a b) : SameDomain b a := by
  cases h <;> constructor

lemma SameDomain.trans (h : SameDomain a b) (h' : SameDomain b c) : SameDomain a c := by
  cases h <;> cases h' <;> constructor

lemma compareValues_eq (h : SameDomain a b) : compareValues a b = some (cmp a.place b.place) := by
  have hl (x y : ℚ) : cmp (toLex (.inl x) : ℚ ⊕ₗ String) (toLex (.inl y)) = cmp x y :=
    Sum.Lex.inl_strictMono.cmp_map_eq x y
  have hr (x y : String) : cmp (toLex (.inr x) : ℚ ⊕ₗ String) (toLex (.inr y)) = cmp x y :=
    Sum.Lex.inr_strictMono.cmp_map_eq x y
  have hz (x y : ℤ) : cmp (x : ℚ) y = cmp x y := Int.cast_strictMono.cmp_map_eq x y
  cases h with
  | number x y | daysTimeDuration x y | yearsMonthsDuration x y => exact congrArg some (hl x y).symm
  | string x y => exact congrArg some (hr x y).symm
  | date t u naive | dateTime t u naive | time t u naive =>
    exact (if_pos rfl).trans (congrArg some ((hl _ _).trans (hz _ _)).symm)

lemma compareValues_eq_none : compareValues a b = none ↔ ¬ SameDomain a b := by
  refine ⟨fun h hab => ?_, fun hab => ?_⟩
  · rw [compareValues_eq hab] at h
    cases h
  · fun_cases compareValues a b
    case case4 | case6 | case8 | case11 => rfl
    all_goals exact absurd (by constructor) hab

/-- The comparison operators, as comparisons of the places. -/
lemma eqTrue_opOrder (h : SameDomain a b) (pick : Ordering → Bool) :
    eqTrue (opOrder pick a b) = pick (cmp a.place b.place) := by
  have hnull : (a.isNull || b.isNull) = false := by cases h <;> rfl
  rw [opOrder, hnull, compareValues_eq h]
  rfl

lemma eqTrue_opLt (h : SameDomain a b) : eqTrue (opLt a b) ↔ a.place < b.place := by
  rw [opLt, eqTrue_opOrder h, beq_iff_eq, cmp_eq_lt_iff]

lemma eqTrue_opLe (h : SameDomain a b) : eqTrue (opLe a b) ↔ a.place ≤ b.place := by
  rw [opLe, eqTrue_opOrder h, bne_iff_ne, Ne, cmp_eq_gt_iff, not_lt]

/-! ## Equality -/

/-- What the constructors of temporal values see to: naive values are kept in UTC, and a naive date
at midnight. -/
def Canonical : BlValue → Prop
  | .date t true => t.offset = 0 ∧ t.unixNano % dayNanos = 0
  | .dateTime t true | .time t true => t.offset = 0
  | _ => True

/-- Two naive times that show the same second of the day and are not the same. -/
def SameSecond (a b : BlValue) : Prop :=
  ∃ t u, a = .time t true ∧ b = .time u true ∧ equalTime t u true = true ∧ t.unixNano ≠ u.unixNano

lemma eqTrue_opEq (ha : a.Canonical) (hb : b.Canonical) (h : SameDomain a b) :
    eqTrue (opEq a b) ↔ a.place = b.place ∨ SameSecond a b := by
  cases h with
  | number | string | daysTimeDuration | yearsMonthsDuration =>
    simp [opEq, isNull, equal, place, SameSecond]
  | date t u naive | dateTime t u naive =>
    cases naive
    · simp [opEq, isNull, equal, equalDate, equalDateTime, place, SameSecond]
    · simp only [Canonical, dayNanos] at ha hb
      simp only [opEq, isNull, Bool.or_self, Bool.false_eq_true, if_false, equal, if_true,
        eqTrue_boolean, equalDate,
        equalDateTime, GoTime.wall, dayNanos, beq_iff_eq, place,
        EmbeddingLike.apply_eq_iff_eq, Sum.inl.injEq,
        Int.cast_inj, SameSecond, reduceCtorEq, false_and, exists_false, or_false]
      omega
  | time t u naive =>
    cases naive
    · simp [opEq, isNull, equal, equalTime, place, SameSecond]
    · simp only [opEq, isNull, Bool.or_self, Bool.false_eq_true, if_false, equal,
        if_true, eqTrue_boolean, place,
        EmbeddingLike.apply_eq_iff_eq, Sum.inl.injEq, Int.cast_inj]
      constructor
      · intro heq
        by_cases hut : t.unixNano = u.unixNano
        · exact .inl hut
        · exact .inr ⟨t, u, rfl, rfl, heq, hut⟩
      · rintro (hut | ⟨t', u', ht, hu, heq, -⟩)
        · simp only [Canonical] at ha hb
          simp [equalTime, GoTime.wall, ha, hb, hut]
        · cases ht
          cases hu
          exact heq

/-- Exactly one of `a < b`, `a = b` and `a > b`, and `a = b` just when `a <= b` and `b <= a`. -/
structure Lawful (a b : BlValue) : Prop where
  exactlyOne : (eqTrue (opLt a b) ∧ ¬ eqTrue (opEq a b) ∧ ¬ eqTrue (opGt a b)) ∨
    (¬ eqTrue (opLt a b) ∧ eqTrue (opEq a b) ∧ ¬ eqTrue (opGt a b)) ∨
    (¬ eqTrue (opLt a b) ∧ ¬ eqTrue (opEq a b) ∧ eqTrue (opGt a b))
  eq_iff : eqTrue (opEq a b) ↔ eqTrue (opLe a b) ∧ eqTrue (opLe b a)

/-- The order is transitive, and it goes with equality except for naive times that show the same
second. -/
theorem ordering_lawful_iff (ha : a.Canonical) (hb : b.Canonical) (h : SameDomain a b) :
    (Lawful a b ↔ ¬ SameSecond a b) ∧ ∀ c, SameDomain b c →
      (eqTrue (opLt a b) → eqTrue (opLt b c) → eqTrue (opLt a c)) ∧
      (eqTrue (opLe a b) → eqTrue (opLe b c) → eqTrue (opLe a c)) := by
  refine ⟨?_, fun c hc => ?_⟩
  · have hplace (hs : SameSecond a b) : a.place ≠ b.place := by
      obtain ⟨t, u, rfl, rfl, -, hne⟩ := hs
      simpa [place] using hne
    have heq := eqTrue_opEq ha hb h
    constructor
    · rintro ⟨-, heq'⟩ hs
      rw [heq, eqTrue_opLe h, eqTrue_opLe h.symm] at heq'
      exact hplace hs (le_antisymm (heq'.1 (.inr hs)).1 (heq'.1 (.inr hs)).2)
    · intro hs
      rw [or_iff_left hs] at heq
      refine ⟨?_, ?_⟩
      · rw [heq, eqTrue_opLt h, opGt, eqTrue_opOrder h, beq_iff_eq, cmp_eq_gt_iff]
        rcases lt_trichotomy a.place b.place with hlt | heq' | hgt
        · exact .inl ⟨hlt, hlt.ne, hlt.asymm⟩
        · exact .inr (.inl ⟨heq'.not_lt, heq', heq'.symm.not_lt⟩)
        · exact .inr (.inr ⟨hgt.asymm, hgt.ne', hgt⟩)
      · rw [heq, eqTrue_opLe h, eqTrue_opLe h.symm, le_antisymm_iff]
  · rw [eqTrue_opLt h, eqTrue_opLt hc, eqTrue_opLt (h.trans hc), eqTrue_opLe h, eqTrue_opLe hc,
      eqTrue_opLe (h.trans hc)]
    exact ⟨lt_trans, le_trans⟩

/-- 10:00:00 on the day all times are on. -/
def tenOClock : GoTime := ⟨-719528 * dayNanos + 36000000000000, 0⟩

/-- 11:00:00 on that day. -/
def elevenOClock : GoTime := ⟨tenOClock.unixNano + 3600000000000, 0⟩

/-- The order is lawful on 10:00:00 and 11:00:00. -/
theorem ordering_lawful_hours : SameDomain (.time tenOClock true) (.time elevenOClock true) ∧
    Lawful (.time tenOClock true) (.time elevenOClock true) := by
  have hdomain : SameDomain (.time tenOClock true) (.time elevenOClock true) := .time _ _ _
  have hten : (BlValue.time tenOClock true).Canonical := rfl
  have heleven : (BlValue.time elevenOClock true).Canonical := rfl
  refine ⟨hdomain, (ordering_lawful_iff hten heleven hdomain).1.2 ?_⟩
  rintro ⟨t, u, ht, hu, hequal, -⟩
  cases ht
  cases hu
  exact absurd hequal (by decide)

/-- 10:00:00 and 10:00:00.5 are equal, and the one is before the other. -/
theorem half_second_equal_and_less :
    opEq (.time tenOClock true) (.time ⟨tenOClock.unixNano + 500000000, 0⟩ true) = .boolean true ∧
      opLt (.time tenOClock true) (.time ⟨tenOClock.unixNano + 500000000, 0⟩ true) =
        .boolean true :=
  ⟨rfl, rfl⟩

end BlValue

end Blkit
