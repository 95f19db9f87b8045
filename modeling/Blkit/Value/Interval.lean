import Blkit.Order.Span
import Blkit.Value.Order
import Mathlib.Order.Interval.Set.Basic

/-!
# Interval predicates

`core/interval.go`: a range or a point is read as an interval, and the predicates compare
the ends of two intervals.  On numbers they are relations between the sets of decimals the
intervals stand for.
-/

namespace Blkit

open BlValue

/-- `interval`: a null end is unbounded. -/
structure Interval where
  lo : BlValue
  hi : BlValue
  loInc : Bool
  hiInc : Bool
  empty : Bool

/-- `isEmptyRange`. -/
def isEmptyRange (start stop : BlValue) (startIncluded endIncluded : Bool) : Bool :=
  if start.isNull || stop.isNull then false
  else match compareValues start stop with
    | some .gt => true
    | some .eq => !startIncluded || !endIncluded
    | _ => false

/-- A point against one end of a range: not to be compared, or whether it is on the wrong side. -/
def outside (side : Ordering) (included : Bool) (point stop : BlValue) : Option Bool :=
  if stop.isNull then some false
  else (compareValues point stop).map fun c => c == side || c == .eq && !included

/-- `contains`: nothing when the point cannot be compared or the range is empty. -/
def rangeContains (start stop : BlValue) (startIncluded endIncluded : Bool) (point : BlValue) :
    Option Bool :=
  if isEmptyRange start stop startIncluded endIncluded then none
  else (outside .lt startIncluded point start).bind fun left =>
    if left then some false else (outside .gt endIncluded point stop).map (!·)

def toInterval : BlValue → Option Interval
  | .range s e si ei => some ⟨s, e, si, ei, isEmptyRange s e si ei⟩
  | .null => none
  | v => some ⟨v, v, true, true, false⟩

section

variable (a b : Interval)

def loStrictlyLeft : Bool :=
  if a.lo.isNull then !b.lo.isNull
  else if b.lo.isNull then false
  else match compareValues a.lo b.lo with
    | none => false
    | some .eq => a.loInc && !b.loInc
    | some c => c == .lt

def loEqual : Bool :=
  if a.lo.isNull || b.lo.isNull then a.lo.isNull && b.lo.isNull
  else compareValues a.lo b.lo == some .eq && a.loInc == b.loInc

def hiEqual : Bool :=
  if a.hi.isNull || b.hi.isNull then a.hi.isNull && b.hi.isNull
  else compareValues a.hi b.hi == some .eq && a.hiInc == b.hiInc

def hiBeforeLo : Bool :=
  if a.hi.isNull || b.lo.isNull then false
  else match compareValues a.hi b.lo with
    | some .lt => true
    | some .eq => !a.hiInc || !b.loInc
    | _ => false

def hiMeetsLo : Bool :=
  if a.hi.isNull || b.lo.isNull then false
  else compareValues a.hi b.lo == some .eq && a.hiInc && b.loInc

def hiWithinHi : Bool :=
  if b.hi.isNull then true
  else if a.hi.isNull then false
  else match compareValues a.hi b.hi with
    | none => false
    | some .eq => !a.hiInc || b.hiInc
    | some c => c == .lt

def intervalsOverlap : Bool := !hiBeforeLo a b && !hiBeforeLo b a

end

def binPred (f : Interval → Interval → Bool) (v w : BlValue) : BlValue :=
  match toInterval v, toInterval w with
  | some a, some b => if a.empty || b.empty then .null else .boolean (f a b)
  | _, _ => .null

def beforeFn : BlValue → BlValue → BlValue := binPred hiBeforeLo

def afterFn : BlValue → BlValue → BlValue := binPred fun a b => hiBeforeLo b a

def meetsFn : BlValue → BlValue → BlValue := binPred hiMeetsLo

def metByFn : BlValue → BlValue → BlValue := binPred fun a b => hiMeetsLo b a

/-- `overlapsFn`, without its overload for calendars. -/
def overlapsFn : BlValue → BlValue → BlValue := binPred intervalsOverlap

def overlapsBeforeFn : BlValue → BlValue → BlValue :=
  binPred fun a b => intervalsOverlap a b && loStrictlyLeft a b

def overlapsAfterFn : BlValue → BlValue → BlValue :=
  binPred fun a b => intervalsOverlap a b && loStrictlyLeft b a

def startsFn : BlValue → BlValue → BlValue := binPred fun a b => loEqual a b && hiWithinHi a b

def startedByFn : BlValue → BlValue → BlValue := binPred fun a b => loEqual a b && hiWithinHi b a

def finishesFn : BlValue → BlValue → BlValue :=
  binPred fun a b => hiEqual a b && !loStrictlyLeft a b

def finishedByFn : BlValue → BlValue → BlValue :=
  binPred fun a b => hiEqual a b && !loStrictlyLeft b a

def coincidesFn : BlValue → BlValue → BlValue := binPred fun a b => loEqual a b && hiEqual a b

/-- The predicates of the language. -/
inductive IntervalPred where
  | before | after | meets | metBy | overlaps | overlapsBefore | overlapsAfter
  | starts | startedBy | finishes | finishedBy | coincides
deriving DecidableEq

namespace IntervalPred

/-- The function of a predicate. -/
def fn : IntervalPred → BlValue → BlValue → BlValue
  | .before => beforeFn
  | .after => afterFn
  | .meets => meetsFn
  | .metBy => metByFn
  | .overlaps => overlapsFn
  | .overlapsBefore => overlapsBeforeFn
  | .overlapsAfter => overlapsAfterFn
  | .starts => startsFn
  | .startedBy => startedByFn
  | .finishes => finishesFn
  | .finishedBy => finishedByFn
  | .coincides => coincidesFn

/-- What the function tests of two intervals. -/
def test : IntervalPred → Interval → Interval → Bool
  | .before, a, b => hiBeforeLo a b
  | .after, a, b => hiBeforeLo b a
  | .meets, a, b => hiMeetsLo a b
  | .metBy, a, b => hiMeetsLo b a
  | .overlaps, a, b => intervalsOverlap a b
  | .overlapsBefore, a, b => intervalsOverlap a b && loStrictlyLeft a b
  | .overlapsAfter, a, b => intervalsOverlap a b && loStrictlyLeft b a
  | .starts, a, b => loEqual a b && hiWithinHi a b
  | .startedBy, a, b => loEqual a b && hiWithinHi b a
  | .finishes, a, b => hiEqual a b && !loStrictlyLeft a b
  | .finishedBy, a, b => hiEqual a b && !loStrictlyLeft b a
  | .coincides, a, b => loEqual a b && hiEqual a b

lemma fn_eq_binPred (p : IntervalPred) : p.fn = binPred p.test := by
  cases p <;> rfl

def converse : IntervalPred → IntervalPred
  | .before => .after
  | .after => .before
  | .meets => .metBy
  | .metBy => .meets
  | .overlapsBefore => .overlapsAfter
  | .overlapsAfter => .overlapsBefore
  | .starts => .startedBy
  | .startedBy => .starts
  | .finishes => .finishedBy
  | .finishedBy => .finishes
  | p => p

/-- What the names say about two sets of decimals. -/
def Rel : IntervalPred → Set ℚ → Set ℚ → Prop
  | .before, A, B => ∀ x ∈ A, ∀ y ∈ B, x < y
  | .after, A, B => ∀ y ∈ B, ∀ x ∈ A, y < x
  | .meets, A, B => ∃ p, IsGreatest A p ∧ IsLeast B p
  | .metBy, A, B => ∃ p, IsGreatest B p ∧ IsLeast A p
  | .overlaps, A, B => (A ∩ B).Nonempty
  | .overlapsBefore, A, B => (A ∩ B).Nonempty ∧ ∃ x ∈ A, ∀ y ∈ B, x < y
  | .overlapsAfter, A, B => (A ∩ B).Nonempty ∧ ∃ y ∈ B, ∀ x ∈ A, y < x
  | .starts, A, B => A ⊆ B ∧ ∀ y ∈ B, ∃ x ∈ A, x ≤ y
  | .startedBy, A, B => B ⊆ A ∧ ∀ x ∈ A, ∃ y ∈ B, y ≤ x
  | .finishes, A, B => A ⊆ B ∧ ∀ y ∈ B, ∃ x ∈ A, y ≤ x
  | .finishedBy, A, B => B ⊆ A ∧ ∀ x ∈ A, ∃ y ∈ B, x ≤ y
  | .coincides, A, B => A = B

end IntervalPred

/-! ## Number intervals -/

/-- An end of a number range. -/
def NumberEnd (v : BlValue) : Prop := v = .null ∨ ∃ q, v = .number q

/-- A number, or a range with number ends. -/
def NumberSpan : BlValue → Prop
  | .number _ => True
  | .range s e _ _ => NumberEnd s ∧ NumberEnd e
  | _ => False

/-- The decimals in a range, or the one a point is. -/
def decimals : BlValue → Set ℚ
  | .range s e si ei => {x | rangeContains s e si ei (.number x) = some true}
  | .number q => {q}
  | _ => ∅

/-- What lies to the left of a point, with the point or without. -/
def cutAt (q : ℚ) (closed : Bool) : LowerSet ℚ := if closed then .Iic q else .Iio q

variable {x y : ℚ} {i j : Bool}

lemma cutAt_le : cutAt x i ≤ cutAt y j ↔ x < y ∨ x = y ∧ (i → j) := by
  rw [← LowerSet.coe_subset_coe]
  cases i <;> cases j <;> simp [cutAt, ← le_iff_lt_or_eq]

lemma mem_cutAt {q : ℚ} : x ∈ cutAt q i ↔ x < q ∨ x = q ∧ i := by
  cases i <;> simp [cutAt, le_iff_lt_or_eq]

lemma cutAt_inj : cutAt x i = cutAt y j ↔ x = y ∧ i = j := by
  rw [le_antisymm_iff, cutAt_le, cutAt_le]
  rcases lt_trichotomy x y with h | rfl | h
  · simp [h.ne, h.ne', h.not_gt]
  · cases i <;> cases j <;> simp
  · simp [h.ne, h.ne', h.not_gt]

lemma cutAt_ne_bot : cutAt x i ≠ ⊥ := by
  intro h
  have : x - 1 ∈ cutAt x i := by cases i <;> simp [cutAt]
  rw [h] at this
  exact this

lemma cutAt_ne_top : cutAt x i ≠ ⊤ := by
  intro h
  have : x + 1 ∉ cutAt x i := by cases i <;> simp [cutAt]
  rw [h] at this
  exact this trivial

/-- What lies to the left of a lower end. -/
def leftOf : BlValue → Bool → LowerSet ℚ
  | .number q, inc => cutAt q !inc
  | _, _ => ⊥

/-- What an upper end lets through. -/
def upToEnd : BlValue → Bool → LowerSet ℚ
  | .number q, inc => cutAt q inc
  | _, _ => ⊤

/-- Two numbers compared. -/
lemma compareValues_cases (x y : ℚ) :
    x < y ∧ compareValues (.number x) (.number y) = some .lt ∨
      x = y ∧ compareValues (.number x) (.number y) = some .eq ∨
      y < x ∧ compareValues (.number x) (.number y) = some .gt := by
  rcases lt_trichotomy x y with h | h | h
  · exact .inl ⟨h, congrArg some ((cmp_eq_lt_iff x y).2 h)⟩
  · exact .inr (.inl ⟨h, congrArg some ((cmp_eq_eq_iff x y).2 h)⟩)
  · exact .inr (.inr ⟨h, congrArg some ((cmp_eq_gt_iff x y).2 h)⟩)

lemma compareValues_eq_eq : compareValues (.number x) (.number y) = some .eq ↔ x = y :=
  Option.some_inj.trans (cmp_eq_eq_iff x y)

namespace Interval

def span (a : Interval) : Span ℚ := ⟨leftOf a.lo a.loInc, upToEnd a.hi a.hiInc⟩

structure Numeric (a : Interval) : Prop where
  lo : NumberEnd a.lo
  hi : NumberEnd a.hi

variable {a b : Interval}

lemma hiBeforeLo_iff (ha : a.Numeric) (hb : b.Numeric) : hiBeforeLo a b ↔
    a.span.upTo ≤ b.span.left := by
  unfold hiBeforeLo span
  obtain h₁ | ⟨x, h₁⟩ := ha.hi <;> obtain h₂ | ⟨y, h₂⟩ := hb.lo <;> rw [h₁, h₂]
  · have htop : (⊤ : LowerSet ℚ) ≠ ⊥ := fun h => (h ▸ trivial : (0 : ℚ) ∈ (⊥ : LowerSet ℚ))
    simp [isNull, upToEnd, leftOf, htop]
  · simp [isNull, upToEnd, leftOf, cutAt_ne_top]
  · simp [isNull, upToEnd, leftOf, cutAt_ne_bot]
  · simp only [isNull, upToEnd, leftOf, cutAt_le]
    rcases compareValues_cases x y with ⟨h, hc⟩ | ⟨rfl, hc⟩ | ⟨h, hc⟩ <;> rw [hc]
    · simp [h]
    · cases a.hiInc <;> simp
    · simp [h.not_gt, h.ne']

lemma loStrictlyLeft_iff (ha : a.Numeric) (hb : b.Numeric) :
    loStrictlyLeft a b ↔ ¬ b.span.left ≤ a.span.left := by
  unfold loStrictlyLeft span
  obtain h₁ | ⟨x, h₁⟩ := ha.lo <;> obtain h₂ | ⟨y, h₂⟩ := hb.lo <;> rw [h₁, h₂]
  · simp [isNull, leftOf]
  · simp [isNull, leftOf, cutAt_ne_bot]
  · simp [isNull, leftOf]
  · simp only [isNull, leftOf, cutAt_le]
    rcases compareValues_cases x y with ⟨h, hc⟩ | ⟨rfl, hc⟩ | ⟨h, hc⟩ <;> rw [hc]
    · simp [h.not_gt, h.ne']
    · cases a.loInc <;> simp
    · simp [h]

lemma hiWithinHi_iff (ha : a.Numeric) (hb : b.Numeric) : hiWithinHi a b ↔
    a.span.upTo ≤ b.span.upTo := by
  unfold hiWithinHi span
  obtain h₁ | ⟨x, h₁⟩ := ha.hi <;> obtain h₂ | ⟨y, h₂⟩ := hb.hi <;> rw [h₁, h₂]
  · simp [isNull, upToEnd]
  · simp [isNull, upToEnd, cutAt_ne_top]
  · simp [isNull, upToEnd]
  · simp only [isNull, upToEnd, cutAt_le]
    rcases compareValues_cases x y with ⟨h, hc⟩ | ⟨rfl, hc⟩ | ⟨h, hc⟩ <;> rw [hc]
    · simp [h]
    · cases a.hiInc <;> simp
    · simp [h.not_gt, h.ne']

lemma loEqual_iff (ha : a.Numeric) (hb : b.Numeric) : loEqual a b ↔ a.span.left = b.span.left := by
  unfold loEqual span
  obtain h₁ | ⟨x, h₁⟩ := ha.lo <;> obtain h₂ | ⟨y, h₂⟩ := hb.lo <;>
    simp [h₁, h₂, isNull, leftOf, compareValues_eq_eq, cutAt_inj, cutAt_ne_bot, cutAt_ne_bot.symm]

lemma hiEqual_iff (ha : a.Numeric) (hb : b.Numeric) : hiEqual a b ↔ a.span.upTo = b.span.upTo := by
  unfold hiEqual span
  obtain h₁ | ⟨x, h₁⟩ := ha.hi <;> obtain h₂ | ⟨y, h₂⟩ := hb.hi <;>
    simp [h₁, h₂, isNull, upToEnd, compareValues_eq_eq, cutAt_inj, cutAt_ne_top, cutAt_ne_top.symm]

lemma hiMeetsLo_iff (ha : a.Numeric) (hb : b.Numeric) :
    hiMeetsLo a b ↔ ∃ p, a.span.upTo = LowerSet.Iic p ∧ b.span.left = LowerSet.Iio p := by
  have hic (p : ℚ) : LowerSet.Iic p = cutAt p true := rfl
  have hio (p : ℚ) : LowerSet.Iio p = cutAt p false := rfl
  unfold hiMeetsLo span
  obtain h₁ | ⟨x, h₁⟩ := ha.hi <;> obtain h₂ | ⟨y, h₂⟩ := hb.lo <;>
    simp [h₁, h₂, isNull, upToEnd, leftOf, compareValues_eq_eq, cutAt_inj,
      hic, hio, cutAt_ne_top.symm,
      cutAt_ne_bot.symm]
  grind

end Interval

/-! ## The predicates as relations between sets -/

variable {v w : BlValue}

lemma outside_number {side : Ordering} {inc : Bool} {q : ℚ} :
    outside side inc (.number x) (.number q) =
      (compareValues (.number x) (.number q)).map fun c => c == side || c == .eq && !inc := rfl

lemma outside_left {s : BlValue} (hs : NumberEnd s) (inc : Bool) (x : ℚ) :
    ∃ o, outside .lt inc (.number x) s = some o ∧ (o ↔ x ∈ leftOf s inc) := by
  obtain rfl | ⟨q, rfl⟩ := hs
  · exact ⟨false, rfl, by simp [leftOf]⟩
  · rw [outside_number, leftOf, mem_cutAt]
    rcases compareValues_cases x q with ⟨h, hc⟩ | ⟨rfl, hc⟩ | ⟨h, hc⟩ <;> rw [hc]
    · exact ⟨true, rfl, by simp [h]⟩
    · exact ⟨!inc, rfl, by simp⟩
    · exact ⟨false, rfl, by simp [h.not_gt, h.ne']⟩

lemma outside_right {e : BlValue} (he : NumberEnd e) (inc : Bool) (x : ℚ) :
    ∃ o, outside .gt inc (.number x) e = some o ∧ (o ↔ x ∉ upToEnd e inc) := by
  obtain rfl | ⟨q, rfl⟩ := he
  · exact ⟨false, rfl, by simp [upToEnd]⟩
  · rw [outside_number, upToEnd, mem_cutAt]
    rcases compareValues_cases x q with ⟨h, hc⟩ | ⟨rfl, hc⟩ | ⟨h, hc⟩ <;> rw [hc]
    · exact ⟨false, rfl, by simp [h]⟩
    · exact ⟨!inc, rfl, by simp⟩
    · exact ⟨true, rfl, by simp [h.not_gt, h.ne']⟩

/-- A non-empty number interval: the predicates read it as it is, and its decimals are the points
of its span. -/
lemma toInterval_of_nonempty (hv : NumberSpan v) (hne : (decimals v).Nonempty) :
    ∃ a, toInterval v = some a ∧ a.empty = false ∧ a.Numeric ∧ decimals v = a.span.points := by
  cases v with
  | number q =>
    refine ⟨_, rfl, rfl, ⟨.inr ⟨q, rfl⟩, .inr ⟨q, rfl⟩⟩, ?_⟩
    ext x
    simp only [decimals, Set.mem_singleton_iff, Interval.span, Span.points, leftOf, upToEnd,
      mem_cutAt, Set.mem_ofPred]
    grind
  | range s e si ei =>
    have hempty : isEmptyRange s e si ei = false := by
      obtain ⟨x, hx⟩ := hne
      by_contra h
      simp [decimals, rangeContains, h] at hx
    refine ⟨_, rfl, hempty, ⟨hv.1, hv.2⟩, ?_⟩
    ext x
    obtain ⟨l, hl, hleft⟩ := outside_left hv.1 si x
    obtain ⟨r, hr, hright⟩ := outside_right hv.2 ei x
    simp only [decimals, rangeContains, hempty, hl, hr, Set.mem_ofPred,
      Span.points, Interval.span, ← hleft,
      ← not_iff_comm.1 hright.symm]
    cases l <;> simp
  | _ => exact hv.elim

section

variable {a b : Interval} (ha : a.Numeric) (hb : b.Numeric)
include ha hb

lemma loEqual_comm : loEqual a b = loEqual b a := by
  rw [Bool.eq_iff_iff, Interval.loEqual_iff ha hb, Interval.loEqual_iff hb ha, eq_comm]

lemma hiEqual_comm : hiEqual a b = hiEqual b a := by
  rw [Bool.eq_iff_iff, Interval.hiEqual_iff ha hb, Interval.hiEqual_iff hb ha, eq_comm]

lemma test_converse (p : IntervalPred) : p.converse.test b a = p.test a b := by
  cases p <;>
    simp [IntervalPred.converse, IntervalPred.test, intervalsOverlap, Bool.and_comm,
      loEqual_comm hb ha, hiEqual_comm hb ha]

variable (hA : a.span.points.Nonempty) (hB : b.span.points.Nonempty)
include hA hB

lemma not_both_before : ¬ (hiBeforeLo a b ∧ hiBeforeLo b a) := by
  rw [Interval.hiBeforeLo_iff ha hb, Interval.hiBeforeLo_iff hb ha, Span.upTo_le_left_iff hA hB,
    Span.upTo_le_left_iff hB hA]
  obtain ⟨x, hx⟩ := hA
  obtain ⟨y, hy⟩ := hB
  exact fun h => (h.1 x hx y hy).asymm (h.2 y hy x hx)

lemma intervalsOverlap_iff : intervalsOverlap a b ↔ (a.span.points ∩ b.span.points).Nonempty := by
  rw [Span.inter_nonempty_iff hA hB, intervalsOverlap, Bool.and_eq_true, Bool.not_eq_true',
    Bool.not_eq_true',
    ← Bool.not_eq_true, ← Bool.not_eq_true, Interval.hiBeforeLo_iff ha hb,
    Interval.hiBeforeLo_iff hb ha]

lemma left_lt_iff : loStrictlyLeft a b ↔ ∃ x ∈ a.span.points, ∀ y ∈ b.span.points, x < y := by
  rw [Interval.loStrictlyLeft_iff ha hb, Span.left_le_iff hB hA]
  push Not
  rfl

lemma meets_iff : hiMeetsLo a b ↔ ∃ p, IsGreatest a.span.points p ∧ IsLeast b.span.points p := by
  rw [Interval.hiMeetsLo_iff ha hb]
  exact exists_congr fun p => and_congr (Span.isGreatest_iff hA).symm (Span.isLeast_iff hB).symm

lemma starts_iff : (loEqual a b && hiWithinHi a b) ↔
    a.span.points ⊆ b.span.points ∧ ∀ y ∈ b.span.points, ∃ x ∈ a.span.points, x ≤ y := by
  rw [Bool.and_eq_true, Interval.loEqual_iff ha hb, Interval.hiWithinHi_iff ha hb,
    Span.subset_iff hA hB,
    ← Span.left_le_iff hA hB, le_antisymm_iff]
  tauto

lemma finishes_iff : (hiEqual a b && !loStrictlyLeft a b) ↔
    a.span.points ⊆ b.span.points ∧ ∀ y ∈ b.span.points, ∃ x ∈ a.span.points, y ≤ x := by
  rw [Bool.and_eq_true, Interval.hiEqual_iff ha hb, Bool.not_eq_true', ← Bool.not_eq_true,
    Interval.loStrictlyLeft_iff ha hb, not_not, Span.subset_iff hA hB, ← Span.upTo_le_iff hB hA,
    le_antisymm_iff]
  tauto

/-- The predicates on non-empty number intervals, as relations between sets. -/
lemma test_iff (p : IntervalPred) : p.test a b ↔ p.Rel a.span.points b.span.points := by
  cases p with
  | before => exact (Interval.hiBeforeLo_iff ha hb).trans (Span.upTo_le_left_iff hA hB)
  | after => exact (Interval.hiBeforeLo_iff hb ha).trans (Span.upTo_le_left_iff hB hA)
  | meets => exact meets_iff ha hb hA hB
  | metBy => exact meets_iff hb ha hB hA
  | overlaps => exact intervalsOverlap_iff ha hb hA hB
  | overlapsBefore =>
    rw [IntervalPred.test, Bool.and_eq_true, intervalsOverlap_iff ha hb hA hB,
      left_lt_iff ha hb hA hB]
    rfl
  | overlapsAfter =>
    rw [IntervalPred.test, Bool.and_eq_true, intervalsOverlap_iff ha hb hA hB,
      left_lt_iff hb ha hB hA]
    rfl
  | starts => exact starts_iff ha hb hA hB
  | startedBy =>
    rw [IntervalPred.test, loEqual_comm ha hb]
    exact starts_iff hb ha hB hA
  | finishes => exact finishes_iff ha hb hA hB
  | finishedBy =>
    rw [IntervalPred.test, hiEqual_comm ha hb]
    exact finishes_iff hb ha hB hA
  | coincides =>
    rw [IntervalPred.test, Bool.and_eq_true, Interval.loEqual_iff ha hb, Interval.hiEqual_iff ha hb,
      IntervalPred.Rel, Set.Subset.antisymm_iff, Span.subset_iff hA hB, Span.subset_iff hB hA,
      le_antisymm_iff,
      le_antisymm_iff]
    tauto

/-- Two intervals are apart, on one side or the other, or overlap. -/
lemma existsUnique_test : ∃! p : IntervalPred, p ∈ [IntervalPred.before, .after, .overlaps] ∧
    p.test a b := by
  have hnot := not_both_before ha hb hA hB
  simp only [List.mem_cons, List.not_mem_nil, or_false]
  cases hab : hiBeforeLo a b with
  | true =>
    have hba : hiBeforeLo b a = false := by simpa [hab] using hnot
    refine ⟨.before, ⟨.inl rfl, hab⟩, ?_⟩
    rintro p ⟨rfl | rfl | rfl, hp⟩ <;> simp_all [IntervalPred.test, intervalsOverlap]
  | false =>
    cases hba : hiBeforeLo b a with
    | true =>
      refine ⟨.after, ⟨.inr (.inl rfl), hba⟩, ?_⟩
      rintro p ⟨rfl | rfl | rfl, hp⟩ <;> simp_all [IntervalPred.test, intervalsOverlap]
    | false =>
      refine ⟨.overlaps,
        ⟨.inr (.inr rfl), by simp [IntervalPred.test, intervalsOverlap, hab, hba]⟩, ?_⟩
      rintro p ⟨rfl | rfl | rfl, hp⟩ <;> simp_all [IntervalPred.test]

end

/-- Every predicate is the relation its name says, the converse pairs are converses, and exactly
one of `before`, `after` and `overlaps` holds. -/
theorem interval_predicates_mean (hv : NumberSpan v) (hw : NumberSpan w)
    (hvne : (decimals v).Nonempty)
    (hwne : (decimals w).Nonempty) :
    (∀ p : IntervalPred, ∃ b, p.fn v w = .boolean b ∧ (b = true ↔ p.Rel (decimals v) (decimals w)) ∧
      p.converse.fn w v = .boolean b) ∧
    ∃! p : IntervalPred, p ∈ [IntervalPred.before, .after, .overlaps] ∧
      p.fn v w = .boolean true := by
  obtain ⟨a, hva, hae, ha, hA⟩ := toInterval_of_nonempty hv hvne
  obtain ⟨b, hwb, hbe, hb, hB⟩ := toInterval_of_nonempty hw hwne
  rw [hA] at hvne ⊢
  rw [hB] at hwne ⊢
  have hfn (p : IntervalPred) : p.fn v w = .boolean (p.test a b) := by
    simp [IntervalPred.fn_eq_binPred, binPred, hva, hwb, hae, hbe]
  have hfn' (p : IntervalPred) : p.fn w v = .boolean (p.test b a) := by
    simp [IntervalPred.fn_eq_binPred, binPred, hva, hwb, hae, hbe]
  refine ⟨fun p => ⟨p.test a b, hfn p, test_iff ha hb hvne hwne p, ?_⟩, ?_⟩
  · rw [hfn', test_converse ha hb]
  · simp only [hfn, BlValue.boolean.injEq]
    exact existsUnique_test ha hb hvne hwne

/-- `[1..3)` and `2` have a point in common, and the range begins before the number. -/
theorem interval_predicates_mean_inside :
    overlapsBeforeFn (.range (.number 1) (.number 3) true false) (.number 2) = .boolean true ∧
      IntervalPred.overlapsBefore.Rel (decimals (.range (.number 1) (.number 3) true false))
        (decimals (.number 2)) := by
  have hv : NumberSpan (.range (.number 1) (.number 3) true false) :=
    ⟨.inr ⟨1, rfl⟩, .inr ⟨3, rfl⟩⟩
  have hvne : (decimals (.range (.number 1) (.number 3) true false)).Nonempty := ⟨2, rfl⟩
  have hw : NumberSpan (.number 2) := trivial
  have htrue : overlapsBeforeFn (.range (.number 1) (.number 3) true false) (.number 2) =
      .boolean true := rfl
  obtain ⟨b, hb, hiff, -⟩ := (interval_predicates_mean hv hw hvne ⟨2, rfl⟩).1 .overlapsBefore
  cases hb.symm.trans htrue
  exact ⟨htrue, hiff.1 rfl⟩

end Blkit
