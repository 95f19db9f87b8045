import Blkit.Value.Basic

/-!
# Language equality and agreement

`equal` is the `Equal` method of every value type: it answers true, false, or
null, and by the SQL rule a null is equal to nothing, not even to another null,
at any depth of a list, dictionary, table or calendar.

`agree` is the notion a reader has in mind when saying that two results *are the
same*: the language's own equality on every atom, with null the same as null.
The two differ exactly on the values that are not equal to themselves.
-/

namespace Blkit

open Bool

/-- `eqTrue`: the answer of `Equal` is a true boolean. -/
def eqTrue : BlValue → Bool
  | .boolean b => b
  | _ => false

@[simp] lemma eqTrue_boolean (b : Bool) : eqTrue (.boolean b) = b := rfl

/-- Nanoseconds in a day. -/
def dayNanos : Int := 86400000000000

namespace BlValue

/-- The atoms of `Equal`: naive temporals compare by what the clock on the wall
shows, zoned ones by instant, and mixing the two is unknown. -/
def equalDate (t u : GoTime) (naive : Bool) : Bool :=
  if naive then t.wall / dayNanos == u.wall / dayNanos else t.unixNano == u.unixNano

/-- `BlTime.Equal` on two times of the same zone kind (`wallSeconds`). -/
def equalTime (t u : GoTime) (naive : Bool) : Bool :=
  if naive then
    (t.wall % dayNanos) / 1000000000 == (u.wall % dayNanos) / 1000000000
  else t.unixNano == u.unixNano

/-- `BlDateTime.Equal` on two datetimes of the same zone kind. -/
def equalDateTime (t u : GoTime) (naive : Bool) : Bool :=
  if naive then t.wall == u.wall else t.unixNano == u.unixNano

lemma equalDate_self (t : GoTime) (naive : Bool) : equalDate t t naive := by
  simp [equalDate]

lemma equalTime_self (t : GoTime) (naive : Bool) : equalTime t t naive := by
  simp [equalTime]

lemma equalDateTime_self (t : GoTime) (naive : Bool) : equalDateTime t t naive := by
  simp [equalDateTime]

mutual

/-- The `Equal` method: `v.Equal(w)`. -/
def equal : BlValue → BlValue → BlValue
  | .boolean a, .boolean b => .boolean (a == b)
  | .number a, .number b => .boolean (a == b)
  | .string a, .string b => .boolean (a == b)
  | .date t n, .date u m => if n = m then .boolean (equalDate t u n) else .null
  | .time t n, .time u m => if n = m then .boolean (equalTime t u n) else .null
  | .dateTime t n, .dateTime u m => if n = m then .boolean (equalDateTime t u n) else .null
  | .daysTimeDuration a, .daysTimeDuration b => .boolean (a == b)
  | .yearsMonthsDuration a, .yearsMonthsDuration b => .boolean (a == b)
  | .list xs, .list ys => .boolean (xs.length == ys.length && equalItems xs ys)
  | .dictionary d, .dictionary o => .boolean (d.length == o.length && equalEntries d o)
  | .range a b i j, .range c e k l =>
      .boolean ((a.isNull && c.isNull || eqTrue (equal a c)) &&
        (b.isNull && e.isNull || eqTrue (equal b e)) && i == k && j == l)
  | .table cs rs, .table ds qs =>
      .boolean (cs.length == ds.length && ds.all cs.contains &&
        rs.length == qs.length && equalRows rs qs)
  | .calendarEntry n v, .calendarEntry m w => .boolean (n == m && eqTrue (equal v w))
  | .calendar es _ _, .calendar fs _ _ => .boolean (es.length == fs.length && equalCalendar es fs)
  | .regex a, .regex b => .boolean (a == b)
  | .func ps b, .func qs c => .boolean (b == c && ",".intercalate ps == ",".intercalate qs)
  | _, _ => .boolean false
termination_by structural x => x

/-- Position by position, every pair equal. -/
def equalItems : List BlValue → List BlValue → Bool
  | x :: xs, y :: ys => eqTrue (equal x y) && equalItems xs ys
  | [], _ => true
  | _ :: _, [] => false
termination_by structural x => x

/-- Every key of the first dictionary is in the second with an equal value. -/
def equalEntries : List (String × BlValue) → List (String × BlValue) → Bool
  | p :: d, o => equalEntry p o && equalEntries d o
  | [], _ => true
termination_by structural x => x

/-- The entry's key is in the dictionary with an equal value. -/
def equalEntry : String × BlValue → List (String × BlValue) → Bool
  | (k, v), o => (o.lookup k).any fun w => eqTrue (equal v w)
termination_by structural x => x

/-- Row by row, every pair of dictionaries equal. -/
def equalRows : List (List (String × BlValue)) → List (List (String × BlValue)) → Bool
  | r :: rs, q :: qs => (r.length == q.length && equalEntries r q) && equalRows rs qs
  | [], _ => true
  | _ :: _, [] => false
termination_by structural x => x

/-- Entry by entry, same name and equal value. -/
def equalCalendar : List (Option String × BlValue) → List (Option String × BlValue) → Bool
  | e :: es, f :: fs => equalCalendarEntry e f && equalCalendar es fs
  | [], _ => true
  | _ :: _, [] => false
termination_by structural x => x

/-- Same name and equal value. -/
def equalCalendarEntry : Option String × BlValue → Option String × BlValue → Bool
  | (n, v), (m, w) => n == m && eqTrue (equal v w)
termination_by structural x => x

end

mutual

/-- Two values are the same: equal, where null is the same as null. -/
def agree : BlValue → BlValue → Bool
  | .null, .null => true
  | .boolean a, .boolean b => a == b
  | .number a, .number b => a == b
  | .string a, .string b => a == b
  | .date t n, .date u m => n == m && equalDate t u n
  | .time t n, .time u m => n == m && equalTime t u n
  | .dateTime t n, .dateTime u m => n == m && equalDateTime t u n
  | .daysTimeDuration a, .daysTimeDuration b => a == b
  | .yearsMonthsDuration a, .yearsMonthsDuration b => a == b
  | .list xs, .list ys => xs.length == ys.length && agreeItems xs ys
  | .dictionary d, .dictionary o => d.length == o.length && agreeEntries d o
  | .range a b i j, .range c e k l => agree a c && agree b e && i == k && j == l
  | .table cs rs, .table ds qs =>
      cs.length == ds.length && ds.all cs.contains && rs.length == qs.length && agreeRows rs qs
  | .calendarEntry n v, .calendarEntry m w => n == m && agree v w
  | .calendar es _ _, .calendar fs _ _ => es.length == fs.length && agreeCalendar es fs
  | .regex a, .regex b => a == b
  | .func ps b, .func qs c => b == c && ",".intercalate ps == ",".intercalate qs
  | .sortKey c d xs, .sortKey e f ys => c == e && d == f && agreeOrder xs ys
  | _, _ => false
termination_by structural x => x

/-- Position by position, every pair the same. -/
def agreeItems : List BlValue → List BlValue → Bool
  | x :: xs, y :: ys => agree x y && agreeItems xs ys
  | [], _ => true
  | _ :: _, [] => false
termination_by structural x => x

/-- Every key of the first dictionary is in the second with the same value. -/
def agreeEntries : List (String × BlValue) → List (String × BlValue) → Bool
  | p :: d, o => agreeEntry p o && agreeEntries d o
  | [], _ => true
termination_by structural x => x

/-- The entry's key is in the dictionary with the same value. -/
def agreeEntry : String × BlValue → List (String × BlValue) → Bool
  | (k, v), o => (o.lookup k).any fun w => agree v w
termination_by structural x => x

/-- Row by row, every pair of dictionaries the same. -/
def agreeRows : List (List (String × BlValue)) → List (List (String × BlValue)) → Bool
  | r :: rs, q :: qs => (r.length == q.length && agreeEntries r q) && agreeRows rs qs
  | [], _ => true
  | _ :: _, [] => false
termination_by structural x => x

/-- Entry by entry, same name and same value. -/
def agreeCalendar : List (Option String × BlValue) → List (Option String × BlValue) → Bool
  | e :: es, f :: fs => agreeCalendarEntry e f && agreeCalendar es fs
  | [], _ => true
  | _ :: _, [] => false
termination_by structural x => x

/-- Same name and same value. -/
def agreeCalendarEntry : Option String × BlValue → Option String × BlValue → Bool
  | (n, v), (m, w) => n == m && agree v w
termination_by structural x => x

/-- Both sort by their column, or by the same listed order. -/
def agreeOrder : Option (List BlValue) → Option (List BlValue) → Bool
  | none, o => o.isNone
  | some xs, o => o.any fun ys => xs.length == ys.length && agreeItems xs ys
termination_by structural x => x

end

/-! ## Equality against agreement

Dictionaries are Go maps with an insertion order, so no dictionary has a key
twice.  On such values, comparing with an agreeing value answers what comparing
the value with itself answers.
-/

mutual

/-- Every dictionary inside the value, also as a table row, has distinct keys. -/
def WellKeyed : BlValue → Prop
  | .list xs => WellKeyedItems xs
  | .dictionary d => (d.map Prod.fst).Nodup ∧ WellKeyedEntries d
  | .range a b _ _ => WellKeyed a ∧ WellKeyed b
  | .table _ rs => WellKeyedRows rs
  | .calendarEntry _ v => WellKeyed v
  | .calendar es _ _ => WellKeyedCalendar es
  | _ => True
termination_by structural x => x

/-- Every item is well keyed. -/
def WellKeyedItems : List BlValue → Prop
  | [] => True
  | x :: xs => WellKeyed x ∧ WellKeyedItems xs
termination_by structural x => x

/-- Every entry's value is well keyed. -/
def WellKeyedEntries : List (String × BlValue) → Prop
  | [] => True
  | p :: d => WellKeyedEntry p ∧ WellKeyedEntries d
termination_by structural x => x

/-- The entry's value is well keyed. -/
def WellKeyedEntry : String × BlValue → Prop
  | (_, v) => WellKeyed v
termination_by structural x => x

/-- Every row is a well keyed dictionary. -/
def WellKeyedRows : List (List (String × BlValue)) → Prop
  | [] => True
  | r :: rs => ((r.map Prod.fst).Nodup ∧ WellKeyedEntries r) ∧ WellKeyedRows rs
termination_by structural x => x

/-- Every calendar entry's value is well keyed. -/
def WellKeyedCalendar : List (Option String × BlValue) → Prop
  | [] => True
  | e :: es => WellKeyedCalendarEntry e ∧ WellKeyedCalendar es
termination_by structural x => x

/-- The calendar entry's value is well keyed. -/
def WellKeyedCalendarEntry : Option String × BlValue → Prop
  | (_, v) => WellKeyed v
termination_by structural x => x

end

/-- In a dictionary with distinct keys, looking up an entry's key finds that entry. -/
lemma lookup_self {d : Row} (h : (d.map Prod.fst).Nodup) : ∀ p ∈ d, d.lookup p.1 = some p.2 := by
  induction d with
  | nil => simp
  | cons q d ih =>
    rw [List.map_cons, List.nodup_cons] at h
    rintro p (_ | ⟨_, hp⟩)
    · rw [List.lookup_cons, beq_self_eq_true]
    · have hne : p.1 ≠ q.1 := fun e => h.1 (e ▸ List.mem_map_of_mem hp)
      rw [List.lookup_cons, beq_false_of_ne hne]
      exact ih h.2 p hp

mutual

/-- A value equals another when the two are the same and it equals itself. -/
theorem equal_eq : (v w : BlValue) → WellKeyed v →
    eqTrue (equal v w) = (agree v w && eqTrue (equal v v))
  | .boolean _, w, _ | .number _, w, _ | .string _, w, _ | .daysTimeDuration _, w, _
  | .yearsMonthsDuration _, w, _ | .regex _, w, _ | .func _ _, w, _ => by
    cases w <;> first | rfl | simp [equal, agree]
  | .date _ n, w, _ | .time _ n, w, _ | .dateTime _ n, w, _ => by
    cases w <;> try rfl
    rename_i m
    by_cases h : n = m <;>
      simp [equal, agree, h, eqTrue, equalDate_self, equalTime_self, equalDateTime_self]
  | .list xs, w, hk => by
    cases w with
    | list ys => simp [equal, agree, equalItems_eq xs ys hk, Bool.and_assoc]
    | _ => rfl
  | .dictionary d, w, hk => by
    cases w with
    | dictionary o =>
      simp [equal, agree, equalEntries_eq d o d hk.2 (lookup_self hk.1), Bool.and_assoc]
    | _ => rfl
  | .range a b i j, w, hk => by
    have hnull (a c : BlValue) (h : eqTrue (equal a c) = (agree a c && eqTrue (equal a a))) :
        (a.isNull && c.isNull || eqTrue (equal a c)) =
          (agree a c && (a.isNull && a.isNull || eqTrue (equal a a))) := by
      by_cases ha : a.isNull
      · rw [(isNull_iff a).1 ha]
        cases c <;> rfl
      · simp [ha, h]
    cases w with
    | range c e k l =>
      rw [equal, equal, eqTrue, eqTrue, hnull a c (equal_eq a c hk.1),
        hnull b e (equal_eq b e hk.2), agree,
        BEq.rfl, BEq.rfl]
      ac_rfl
    | _ => rfl
  | .table cs rs, w, hk => by
    cases w with
    | table ds qs =>
      have hcs : cs.all cs.contains := by simp
      simp [equal, agree, equalRows_eq rs qs hk, hcs, Bool.and_assoc]
    | _ => rfl
  | .calendarEntry n v, w, hk => by
    cases w with
    | calendarEntry m w => simp [equal, agree, equal_eq v w hk, Bool.and_assoc]
    | _ => rfl
  | .calendar es _ _, w, hk => by
    cases w with
    | calendar fs _ _ => simp [equal, agree, equalCalendar_eq es fs hk, Bool.and_assoc]
    | _ => rfl
  | .null, w, _ | .sortKey _ _ _, w, _ => by cases w <;> simp [equal, eqTrue]

theorem equalItems_eq : (xs ys : List BlValue) → WellKeyedItems xs →
    equalItems xs ys = (agreeItems xs ys && equalItems xs xs)
  | [], _, _ | _ :: _, [], _ => rfl
  | x :: xs, y :: ys, hk => by
    simp [equalItems, agreeItems, equal_eq x y hk.1, equalItems_eq xs ys hk.2]
    ac_rfl

-- The dictionary is walked while lookups go to all of it, so it is carried along
-- as `all`.
theorem equalEntries_eq : (d o all : List (String × BlValue)) → WellKeyedEntries d →
    (∀ p ∈ d, all.lookup p.1 = some p.2) → equalEntries d o =
      (agreeEntries d o && equalEntries d all)
  | [], _, _, _, _ => rfl
  | (k, v) :: d, o, all, hk, hd => by
    have hself : all.lookup k = some v := hd (k, v) (by simp)
    rw [equalEntries, equalEntries, agreeEntries,
      equalEntries_eq d o all hk.2 (fun q hq => hd q (by simp [hq]))]
    cases ho : o.lookup k with
    | none => simp [equalEntry, agreeEntry, ho]
    | some w =>
      simp [equalEntry, agreeEntry, ho, hself, equal_eq v w hk.1]
      ac_rfl

theorem equalRows_eq : (rs qs : List (List (String × BlValue))) → WellKeyedRows rs →
    equalRows rs qs = (agreeRows rs qs && equalRows rs rs)
  | [], _, _ | _ :: _, [], _ => rfl
  | r :: rs, q :: qs, hk => by
    simp [equalRows, agreeRows, equalRows_eq rs qs hk.2,
      equalEntries_eq r q r hk.1.2 (lookup_self hk.1.1)]
    ac_rfl

theorem equalCalendar_eq : (es fs : List (Option String × BlValue)) →
    WellKeyedCalendar es → equalCalendar es fs = (agreeCalendar es fs && equalCalendar es es)
  | [], _, _ | _ :: _, [], _ => rfl
  | (n, v) :: es, (m, w) :: fs, hk => by
    simp [equalCalendar, equalCalendarEntry, agreeCalendar, agreeCalendarEntry, equal_eq v w hk.1,
      equalCalendar_eq es fs hk.2]
    ac_rfl

end

end BlValue

end Blkit
