import Blkit.Expr.Eval
import Blkit.Order.Slice
import Blkit.Value.Order

/-!
# Calendars

A calendar has its entries in the order of their starts.  Starts that cannot be compared, such as
those of a date and a datetime, leave the order to the names, and with entries of both kinds "comes
first" may go in a circle.  `next` and `prev` look at the starts alone, on either side of a point.
-/

namespace Blkit

open BlValue Fallible List

/-- An entry's name and value. -/
abbrev CalendarEntry := Option String × BlValue

def isTemporalEntryValue : BlValue → Bool
  | .date _ _ | .dateTime _ _ => true
  | .range s e _ _ => isTemporalEntryValue s || isTemporalEntryValue e || s.isNull && e.isNull
  | _ => false

def entryStart (e : CalendarEntry) : BlValue :=
  match e.2 with
  | .range s _ _ _ => s
  | v => v

/-- The text `Name()` returns, also for an entry without a name. -/
def entryName (e : CalendarEntry) : String := e.1.getD ""

/-- The comparison of `sortEntries`. -/
def entryLess (e f : CalendarEntry) : Bool :=
  match compareValues (entryStart e) (entryStart f) with
  | some .lt => true
  | some .gt => false
  | _ => entryName e < entryName f

section

variable (sort : (CalendarEntry → CalendarEntry → Bool) → List CalendarEntry → List CalendarEntry)

/-- `Calendar`; an option `WithValidity` is the two ends of its range. -/
def calendar (entries : List CalendarEntry) (opts : List (BlValue × BlValue)) : Result BlValue :=
  if entries.all fun e => isTemporalEntryValue e.2 then
    let valid := opts.getLastD (.null, .null)
    .ok (.calendar (sort entryLess entries) valid.1 valid.2)
  else .error (.typeError "Calendar" "entry must be a date, datetime, or range")

def mergedEntries : BlValue → Result (List CalendarEntry)
  | .calendar entries _ _ => .ok entries
  | _ => .error (.typeError "calendarMerge" "elements must be calendars")

def calendarMerge (items : List BlValue) : Result BlValue := do
  let entries ← items.mapM mergedEntries
  .ok (.calendar (sort entryLess entries.flatten) .null .null)

/-! ## The order of the entries -/

/-- The entries of a calendar that is made of entries in this order, one by one or by merging. -/
inductive CalendarOf (entries : List CalendarEntry) : List CalendarEntry → Prop
  | calendar {opts es from_ to_} : calendar sort entries opts = .ok (.calendar es from_ to_) →
      CalendarOf entries es
  | merge {items parts es from_ to_} : items.mapM mergedEntries = .ok parts →
      parts.flatten = entries →
      calendarMerge sort items = .ok (.calendar es from_ to_) → CalendarOf entries es

/-- Entries that start at the same point, or both at none, and have the same name. -/
def SameEntry (e f : CalendarEntry) : Prop :=
  (compareValues (entryStart e) (entryStart f) = some .eq ∨ entryStart e = entryStart f) ∧
    entryName e = entryName f

/-- In whatever order the entries are given, they come out in the same one, up to entries with the
same start and name; and starts that can be compared do not decrease. -/
structure CanonicalOrder (entries : List CalendarEntry) : Prop where
  independent : ∀ l l' es es', l.Perm entries → l'.Perm entries → CalendarOf sort l es →
    CalendarOf sort l' es' → Forall₂ SameEntry es es'
  increasing : ∀ l es, l.Perm entries → CalendarOf sort l es →
    es.Pairwise fun e f => compareValues (entryStart e) (entryStart f) ≠ some .gt

end

/-- By start the first is before the second; the third cannot be compared with them, and by name
is not before the second and not after the first. -/
def Circular (e f g : CalendarEntry) : Prop :=
  compareValues (entryStart e) (entryStart f) = some .lt ∧
    compareValues (entryStart e) (entryStart g) = none ∧
    entryName f ≤ entryName g ∧ entryName g ≤ entryName e

/-- The names order the entries whose starts cannot be compared: two of them with the same name have
the same start, and no three go in a circle. -/
structure NamesAgree (entries : List CalendarEntry) : Prop where
  same_start : ∀ e ∈ entries, ∀ f ∈ entries, compareValues (entryStart e) (entryStart f) = none →
    entryName e = entryName f → entryStart e = entryStart f
  not_circular : ∀ e ∈ entries, ∀ f ∈ entries, ∀ g ∈ entries, ¬ Circular e f g

/-- Where an entry belongs: by its start, then by its name. -/
def entryPlace (e : CalendarEntry) : (ℚ ⊕ₗ String) ×ₗ String :=
  toLex ((entryStart e).place, entryName e)

variable {sort large : (CalendarEntry → CalendarEntry → Bool) → List CalendarEntry →
  List CalendarEntry}
  {entries es : List CalendarEntry} {e f g : CalendarEntry}

lemma CalendarOf.eq (h : CalendarOf sort entries es) : es = sort entryLess entries := by
  cases h with
  | calendar h =>
    rw [Blkit.calendar] at h
    split at h
    · cases h
      rfl
    · cases h
  | merge hparts hflat h =>
    rw [calendarMerge, hparts, ok_bind, hflat] at h
    cases h
    rfl

lemma CalendarOf.of_temporal (h : ∀ e ∈ entries, isTemporalEntryValue e.2) :
    CalendarOf sort entries (sort entryLess entries) := by
  have hok : Blkit.calendar sort entries [] =
      .ok (.calendar (sort entryLess entries) .null .null) :=
    if_pos (all_eq_true.2 h)
  exact .calendar hok

lemma entryLess_iff (h : SameDomain (entryStart e) (entryStart f)) :
    entryLess e f ↔ entryPlace e < entryPlace f := by
  rw [entryLess, compareValues_eq h, entryPlace, entryPlace, Prod.Lex.toLex_lt_toLex]
  rcases lt_trichotomy (entryStart e).place (entryStart f).place with hlt | heq | hgt
  · rw [(cmp_eq_lt_iff _ _).2 hlt]
    simp [hlt]
  · rw [heq, cmp_self_eq_eq]
    simp
  · rw [(cmp_eq_gt_iff _ _).2 hgt]
    simp [hgt.asymm, hgt.ne']

lemma entryLess_iff_name (h : ¬ SameDomain (entryStart e) (entryStart f)) :
    entryLess e f ↔ entryName e < entryName f := by
  rw [entryLess, compareValues_eq_none.2 h, decide_eq_true_eq]

lemma compareValues_eq_lt : compareValues (entryStart e) (entryStart f) = some .lt ↔
    SameDomain (entryStart e) (entryStart f) ∧ (entryStart e).place < (entryStart f).place := by
  by_cases h : SameDomain (entryStart e) (entryStart f)
  · rw [compareValues_eq h, Option.some_inj, cmp_eq_lt_iff, and_iff_right h]
  · rw [compareValues_eq_none.2 h]
    simp [h]

lemma entryName_eq (h : entryPlace e = entryPlace f) : entryName e = entryName f :=
  congrArg (fun p => (ofLex p).2) h

lemma entryLess_of_gt (h : compareValues (entryStart e) (entryStart f) = some .gt) :
    entryLess f e := by
  have hdom : SameDomain (entryStart e) (entryStart f) := by
    by_contra hdom
    simp [compareValues_eq_none.2 hdom] at h
  rw [compareValues_eq hdom, Option.some_inj, cmp_eq_gt_iff] at h
  exact (entryLess_iff hdom.symm).2 (Prod.Lex.toLex_lt_toLex.2 (.inl h))

/-- The comparison does not tell entries with the same start and name apart. -/
lemma SameEntry.entryLess_eq (h : SameEntry e f) (g : CalendarEntry) :
    entryLess g e = entryLess g f := by
  obtain ⟨heq | heq, hname⟩ := h
  · have hdom : SameDomain (entryStart e) (entryStart f) := by
      by_contra hdom
      simp [compareValues_eq_none.2 hdom] at heq
    rw [compareValues_eq hdom, Option.some_inj, cmp_eq_eq_iff] at heq
    rw [Bool.eq_iff_iff]
    by_cases hge : SameDomain (entryStart g) (entryStart e)
    · rw [entryLess_iff hge, entryLess_iff (hge.trans hdom), entryPlace,
        entryPlace, entryPlace, heq,
        hname]
    · rw [entryLess_iff_name hge, entryLess_iff_name fun hgf => hge (hgf.trans hdom.symm), hname]
  · rw [entryLess, entryLess, heq, hname]

/-- An entry of another kind is, by name, after the first or before the second of two. -/
lemma name_lt_or_lt (h : ¬ Circular e f g) (hef : SameDomain (entryStart e) (entryStart f))
    (heg : ¬ SameDomain (entryStart e) (entryStart g)) (hlt : entryPlace e < entryPlace f) :
    entryName e < entryName g ∨ entryName g < entryName f := by
  by_contra hnot
  rw [not_or, not_lt, not_lt] at hnot
  rcases Prod.Lex.toLex_lt_toLex.1 hlt with hstart | ⟨-, hname⟩
  · exact h ⟨compareValues_eq_lt.2 ⟨hef, hstart⟩, compareValues_eq_none.2 heg, hnot.2, hnot.1⟩
  · exact absurd (hnot.2.trans hnot.1) (not_le.2 hname)

/-- Without a circle the comparison is an order, with ties. -/
lemma ranks_entryLess (h : ∀ e ∈ entries, ∀ f ∈ entries, ∀ g ∈ entries, ¬ Circular e f g) :
    Ranks entryLess entries := by
  refine ⟨fun e he f hf hef => ?_, fun e he f hf g hg hef => ?_⟩
  · by_cases hdom : SameDomain (entryStart e) (entryStart f)
    · rw [entryLess_iff hdom] at hef
      rw [← Bool.not_eq_true, entryLess_iff hdom.symm]
      exact hef.asymm
    · rw [entryLess_iff_name hdom] at hef
      rw [← Bool.not_eq_true, entryLess_iff_name fun hfe => hdom hfe.symm]
      exact hef.asymm
  · by_cases hdom : SameDomain (entryStart e) (entryStart f)
    · rw [entryLess_iff hdom] at hef
      by_cases heg : SameDomain (entryStart e) (entryStart g)
      · rw [entryLess_iff heg, entryLess_iff (heg.symm.trans hdom)]
        exact (lt_or_ge _ _).imp_right fun h => h.trans_lt hef
      · have hgf : ¬ SameDomain (entryStart g) (entryStart f) :=
          fun hgf => heg (hdom.trans hgf.symm)
        rw [entryLess_iff_name heg, entryLess_iff_name hgf]
        exact name_lt_or_lt (h e he f hf g hg) hdom heg hef
    · rw [entryLess_iff_name hdom] at hef
      by_cases heg : SameDomain (entryStart e) (entryStart g)
      · have hgf : ¬ SameDomain (entryStart g) (entryStart f) := fun hgf => hdom (heg.trans hgf)
        rw [entryLess_iff heg, entryLess_iff_name hgf]
        refine (lt_or_ge _ _).imp_right fun hge => ?_
        rcases hge.lt_or_eq with hlt | heq
        · exact (name_lt_or_lt (h g hg e he f hf) heg.symm hgf hlt).resolve_right hef.asymm
        · rwa [entryName_eq heq]
      · by_cases hgf : SameDomain (entryStart g) (entryStart f)
        · rw [entryLess_iff_name heg, entryLess_iff hgf]
          refine ((lt_or_ge _ _).imp_right fun hge => ?_).symm
          have hfe : ¬ SameDomain (entryStart f) (entryStart e) := fun hfe => hdom hfe.symm
          rcases hge.lt_or_eq with hlt | heq
          · exact (name_lt_or_lt (h f hf g hg e he) hgf.symm hfe hlt).resolve_left hef.asymm
          · rwa [← entryName_eq heq]
        · rw [entryLess_iff_name heg, entryLess_iff_name hgf]
          exact (lt_or_ge _ _).imp_right fun h => h.trans_lt hef

/-- Entries that tie have the same place, or the same name and starts that cannot be compared. -/
lemma NamesAgree.sameEntry (h : NamesAgree entries) (he : e ∈ entries) (hf : f ∈ entries)
    (hef : ¬ entryLess e f) (hfe : ¬ entryLess f e) : SameEntry e f := by
  by_cases hdom : SameDomain (entryStart e) (entryStart f)
  · rw [entryLess_iff hdom, not_lt] at hef
    rw [entryLess_iff hdom.symm, not_lt] at hfe
    obtain ⟨hplace, hname⟩ := Prod.mk.inj (toLex_inj.1 (hfe.antisymm hef))
    refine ⟨.inl ?_, hname⟩
    rw [compareValues_eq hdom, hplace, cmp_self_eq_eq]
  · rw [entryLess_iff_name hdom, not_lt] at hef
    rw [entryLess_iff_name fun h => hdom h.symm, not_lt] at hfe
    have hname := hfe.antisymm hef
    exact ⟨.inr (h.same_start e he f hf (compareValues_eq_none.2 hdom) hname), hname⟩

lemma Circular.nodup (h : Circular e f g) : [f, g, e].Nodup := by
  obtain ⟨hlt, hnone, -, -⟩ := h
  obtain ⟨hdom, hplace⟩ := compareValues_eq_lt.1 hlt
  have hother := compareValues_eq_none.1 hnone
  have hfg : f ≠ g := by
    rintro rfl
    exact hother hdom
  have hfe : f ≠ e := by
    rintro rfl
    exact lt_irrefl _ hplace
  have hge : g ≠ e := by
    rintro rfl
    exact hother (hdom.trans hdom.symm)
  simp [hfg, hfe, hge]

/-- Three entries in a circle stay in the order they come first in. -/
lemma Circular.not_increasing (h : Circular e f g) (hsort : StableSorting sort)
    (l : List CalendarEntry) : ¬ (sort entryLess (f :: g :: e :: l)).Pairwise fun e f =>
      compareValues (entryStart e) (entryStart f) ≠ some .gt := by
  obtain ⟨hlt, hnone, hfg, hge⟩ := h
  obtain ⟨hdom, hplace⟩ := compareValues_eq_lt.1 hlt
  have hother := compareValues_eq_none.1 hnone
  have hkeep : insertLeft entryLess [f, g, e] = [f, g, e] := by
    have hgf : entryLess g f = false := by
      rw [← Bool.not_eq_true, entryLess_iff_name fun hgf => hother (hdom.trans hgf.symm), not_lt]
      exact hfg
    have heg : entryLess e g = false := by
      rw [← Bool.not_eq_true, entryLess_iff_name hother, not_lt]
      exact hge
    simp [insertLeft, hgf, heg]
  intro hinc
  have hpair := hinc.sublist (hsort.sublist (Nat.le_of_ble_eq_true rfl) hkeep)
  refine (pairwise_cons.1 hpair).1 e (by simp) ?_
  rw [compareValues_eq hdom.symm, (cmp_eq_gt_iff _ _).2 hplace]

/-- If the names agree with the starts, the entries are sorted by their rank. -/
lemma NamesAgree.canonicalOrder (hlarge : StableSorting large) (h : NamesAgree entries) :
    CanonicalOrder (sliceStable large) entries := by
  have hless := (ranks_entryLess h.not_circular).less_iff
  have hsorted {l : List CalendarEntry} (hl : l.Perm entries) :=
    hlarge.sliceStable.sortedBy fun e he f hf => hless e (hl.subset he) f (hl.subset hf)
  have hmem {l : List CalendarEntry} (hl : l.Perm entries) {e : CalendarEntry}
      (he : e ∈ sliceStable large entryLess l) : e ∈ entries :=
    hl.subset ((hsorted hl).perm.subset he)
  refine ⟨fun l l' es es' hl hl' hes hes' => ?_, fun l es hl hes => ?_⟩
  · obtain rfl := hes.eq
    obtain rfl := hes'.eq
    have hrank := (hsorted hl').forall₂ (hsorted hl) (hl.trans hl'.symm)
    refine forall₂_iff_zip.2 ⟨hrank.length_eq, fun {e f} hef => ?_⟩
    have he := hmem hl (of_mem_zip hef).1
    have hf := hmem hl' (of_mem_zip hef).2
    have hrank := (forall₂_iff_zip.1 hrank).2 hef
    refine h.sameEntry he hf ?_ ?_
    · rw [hless e he f hf]
      exact hrank.not_lt
    · rw [hless f hf e he]
      exact hrank.not_gt
  · obtain rfl := hes.eq
    refine (hsorted hl).sorted.imp_of_mem fun {e f} he hf hle hgt => ?_
    have hlt := (hless f (hmem hl hf) e (hmem hl he)).1 (entryLess_of_gt hgt)
    exact absurd hlt (not_lt.2 hle)

/-- Three entries in a circle can be given in an order that does not increase, and two with the same
name and starts that cannot be compared in either order. -/
lemma CanonicalOrder.namesAgree (hlarge : StableSorting large)
    (htemporal : ∀ e ∈ entries, isTemporalEntryValue e.2)
    (h : CanonicalOrder (sliceStable large) entries) : NamesAgree entries := by
  have hsort := hlarge.sliceStable
  have hof {l : List CalendarEntry} (hl : l.Perm entries) :
      CalendarOf (sliceStable large) l (sliceStable large entryLess l) :=
    .of_temporal fun e he => htemporal e (hl.subset he)
  have hcircular : ∀ e ∈ entries, ∀ f ∈ entries, ∀ g ∈ entries, ¬ Circular e f g := by
    intro e he f hf g hg hc
    have hsub : [f, g, e] ⊆ entries := by simp [he, hf, hg]
    obtain ⟨l, hl⟩ := exists_append_perm hc.nodup hsub
    exact hc.not_increasing hsort l (h.increasing _ _ hl (hof hl))
  refine ⟨fun e he f hf hnone hname => ?_, hcircular⟩
  by_contra hne
  have hef : [e, f].Nodup := by simpa using fun hef => hne (congrArg entryStart hef)
  have hsub : [e, f] ⊆ entries := by simp [he, hf]
  obtain ⟨l, hl⟩ := exists_append_perm hef hsub
  have hl' := (Perm.swap e f l).trans hl
  have hless := (ranks_entryLess hcircular).less_iff
  have hsorted {l : List CalendarEntry} (hl : l.Perm entries) :=
    hsort.sortedBy fun e he f hf => hless e (hl.subset he) f (hl.subset hf)
  have hrank : rank entryLess entries e = rank entryLess entries f := by
    have hdom := compareValues_eq_none.1 hnone
    refine (not_lt.1 ?_).antisymm (not_lt.1 ?_)
    · rw [← hless f hf e he, entryLess_iff_name fun h => hdom h.symm, hname]
      exact lt_irrefl _
    · rw [← hless e he f hf, entryLess_iff_name hdom, hname]
      exact lt_irrefl _
  have hsame : SameEntry e f := by
    refine (hsorted hl).rel (fun a b hab => ?_) hrank (hsorted hl')
      (h.independent _ _ _ _ hl hl' (hof hl) (hof hl'))
    simp only [rank, hab.entryLess_eq]
  rcases hsame.1 with heq | heq
  · rw [heq] at hnone
    cases hnone
  · exact hne heq

/-- The order of a calendar is canonical just when the names agree with the starts. -/
theorem calendar_canonical_iff (hlarge : StableSorting large)
    (htemporal : ∀ e ∈ entries, isTemporalEntryValue e.2) :
    CanonicalOrder (sliceStable large) entries ↔ NamesAgree entries :=
  ⟨CanonicalOrder.namesAgree hlarge htemporal, NamesAgree.canonicalOrder hlarge⟩

/-- The midnight this many days after the epoch. -/
def dayStart (day : Int) : GoTime := ⟨day * dayNanos, 0⟩

/-- Two days in order, by name before and after an entry without a start. -/
theorem open_range_canonical : CanonicalOrder (sliceStable insertLeft)
    [(some "c", .date (dayStart 2) true), (none, .date (dayStart 1) true),
      (some "b", .range .null (.date (dayStart 3) true) false true)] := by
  refine (calendar_canonical_iff insertLeft_stableSorting (by decide)).2 ⟨?_, ?_⟩
  · simp [entryName]
  · unfold Circular
    decide

/-- The first day is before the second, that one, by name, before a datetime, and that, by name,
before the first day. -/
theorem circular_entries : let first : CalendarEntry := (some "c", .date (dayStart 1) true)
    let second : CalendarEntry := (some "a", .date (dayStart 2) true)
    let noon : CalendarEntry := (some "b", .dateTime ⟨dayNanos / 2, 0⟩ true)
    calendar (sliceStable insertLeft) [second, noon, first] [] =
      .ok (.calendar [second, noon, first] .null .null) ∧
    calendar (sliceStable insertLeft) [first, second, noon] [] =
      .ok (.calendar [first, second, noon] .null .null) ∧
    compareValues (entryStart second) (entryStart first) = some .gt :=
  ⟨rfl, rfl, rfl⟩

/-! ## Steps from a point -/

def entryEnd (e : CalendarEntry) : BlValue :=
  match e.2 with
  | .range _ stop _ _ => stop
  | v => v

def startsAfter (point : BlValue) (e : CalendarEntry) : Bool :=
  compareValues (entryStart e) point == some .gt

def startsBefore (point : BlValue) (e : CalendarEntry) : Bool :=
  compareValues (entryStart e) point == some .lt

/-- The entries `calStep` goes through, the nearest first. -/
def stepMatches (forward : Bool) (entries : List CalendarEntry) (point : BlValue) :
    List CalendarEntry :=
  if forward then entries.filter (startsAfter point) else
    (entries.filter (startsBefore point)).reverse

/-- The element at an index as a value. -/
def entryAt (entries : List CalendarEntry) (i : ℕ) : BlValue :=
  (entries[i]?.map fun e => .calendarEntry e.1 e.2).getD .null

/-- `calStep` with the arguments calendar, point and, if it is given, count. -/
def calStep (forward : Bool) (c point : BlValue) (count : Option BlValue) : Result BlValue :=
  match c with
  | .calendar entries _ _ =>
    let n : Int := match count with
      | some (.number d) => intPart d
      | _ => 1
    let found := stepMatches forward entries point
    .ok (if n < 1 ∨ found.length < n then .null else entryAt found (n - 1).toNat)
  | v => .error v.argTypeError

/-- Asked for number 1, 2 and so on, `f` answers with the entries in this order, then with null. -/
def Answers (f : BlValue → Result BlValue) (entries : List CalendarEntry)
    (r : CalendarEntry → CalendarEntry → Prop) :
    Prop :=
  ∃ es, es.Perm entries ∧ es.Pairwise r ∧ ∀ n : ℕ, n + 1 < 2 ^ 63 →
    f (.number (n + 1 : ℕ)) = .ok (entryAt es n)

section Steps

variable {forward : Bool} {from_ to_ point : BlValue} {es' : List CalendarEntry}

lemma intPart_natCast {n : ℕ} (hn : n < 2 ^ 63) : intPart n = n := by
  rw [← Int.cast_natCast, intPart_intCast, bmod_eq_self_iff]
  omega

lemma calStep_eq {n : ℕ} (hn : n + 1 < 2 ^ 63) :
    calStep forward (.calendar entries from_ to_) point (some (.number (n + 1 : ℕ))) =
      .ok (entryAt (stepMatches forward entries point) n) := by
  simp only [calStep, intPart_natCast hn]
  split
  case isTrue h =>
    rw [entryAt, getElem?_eq_none (by omega)]
    rfl
  case isFalse h => simp

lemma entryAt_inj {n : ℕ} (h : entryAt es n = entryAt es' n) : es[n]? = es'[n]? := by
  rw [entryAt, entryAt] at h
  cases hn : es[n]? with
  | none => cases hn' : es'[n]? with
    | none => rfl
    | some e => simp [hn, hn'] at h
  | some e => cases hn' : es'[n]? with
    | none => simp [hn, hn'] at h
    | some e' =>
      simp only [hn, hn', Option.map_some, Option.getD_some, calendarEntry.injEq] at h
      exact congrArg some (Prod.ext h.1 h.2)

lemma answers_calStep_iff {r : CalendarEntry → CalendarEntry → Prop}
    (hlen : entries.length < 2 ^ 63)
    (hsub : es.length < 2 ^ 63) :
    Answers (fun n => calStep forward (.calendar entries from_ to_) point (some n)) es r ↔
      (stepMatches forward entries point).Perm es ∧
      (stepMatches forward entries point).Pairwise r := by
  constructor
  · rintro ⟨es', hperm, hr, hall⟩
    have hfound : (stepMatches forward entries point).length < 2 ^ 63 := by
      refine lt_of_le_of_lt ?_ hlen
      rw [stepMatches]
      split
      · exact length_filter_le _ _
      · rw [length_reverse]
        exact length_filter_le _ _
    have heq : stepMatches forward entries point = es' := by
      refine ext_getElem? fun n => ?_
      by_cases hn : n + 1 < 2 ^ 63
      · exact entryAt_inj (Except.ok.inj ((calStep_eq hn).symm.trans (hall n hn)))
      · rw [getElem?_eq_none (by omega), getElem?_eq_none (by rw [hperm.length_eq]; omega)]
    rw [heq]
    exact ⟨hperm, hr⟩
  · rintro ⟨hperm, hr⟩
    exact ⟨_, hperm, hr, fun n hn => calStep_eq hn⟩

/-- `next` goes through the entries that start after the point and `prev` through those that end
before it just when the former are in order, an entry that starts before the point ends before it,
and the ends of such entries are in order. -/
theorem calendar_navigation_iff (hlen : entries.length < 2 ^ 63) :
    (Answers (fun n => calStep true (.calendar entries from_ to_) point (some n))
      (entries.filter (startsAfter point))
        (fun e f => compareValues (entryStart e) (entryStart f) ≠ some .gt) ∧
      Answers (fun n => calStep false (.calendar entries from_ to_) point (some n))
        (entries.filter fun e => compareValues (entryEnd e) point == some .lt)
        (fun e f => compareValues (entryEnd e) (entryEnd f) ≠ some .lt)) ↔
    (entries.filter (startsAfter point)).Pairwise
      (fun e f => compareValues (entryStart e) (entryStart f) ≠ some .gt) ∧
      (∀ e ∈ entries, startsBefore point e ↔ compareValues (entryEnd e) point = some .lt) ∧
      (entries.filter (startsBefore point)).Pairwise fun e f =>
        compareValues (entryEnd f) (entryEnd e) ≠ some .lt := by
  have hfilter (q : CalendarEntry → Bool) : (entries.filter q).length < 2 ^ 63 :=
    (length_filter_le _ _).trans_lt hlen
  rw [answers_calStep_iff hlen (hfilter _), answers_calStep_iff hlen (hfilter _)]
  refine and_congr (and_iff_right (.refl _)) (and_congr ?_ pairwise_reverse)
  simp only [stepMatches, Bool.false_eq_true, if_false]
  constructor
  · intro h e he
    simpa [he] using h.mem_iff (a := e)
  · intro h
    refine (reverse_perm _).trans (.of_eq (filter_congr fun e he => ?_))
    rw [Bool.eq_iff_iff, h e he, beq_iff_eq]

end Steps

/-- `prev` from a day between two holidays. -/
theorem calendar_navigation_day : (2 : ℕ) < 2 ^ 63 ∧
    Answers
      (fun n => calStep false
        (.calendar [(none, .date (dayStart 1) true), (none, .date (dayStart 3) true)] .null
      .null) (.date (dayStart 2) true) (some n)) [(none, .date (dayStart 1) true)]
        (fun e f => compareValues (entryEnd e) (entryEnd f) ≠ some .lt) := by
  refine ⟨by decide, ((calendar_navigation_iff (by decide)).2 ⟨?_, ?_, ?_⟩).2⟩
  all_goals decide

/-- `prev` returns a range the point is in. -/
theorem prev_covering :
    calStep false
      (.calendar [(none, .range (.date (dayStart 1) true) (.date (dayStart 3) true) true true)]
        .null .null)
      (.date (dayStart 2) true) none =
    .ok (.calendarEntry none
      (.range (.date (dayStart 1) true) (.date (dayStart 3) true) true true)) := rfl

end Blkit
