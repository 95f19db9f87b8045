import Blkit.Store.Replay

/-!
# The current version of a run

`CurrentVersion` folds the committed records of a run in replay order, so the last
one written to a field stays.  Said without records: a field holds the value of the
latest of the accepted writes to it whose first later status flip committed them.
-/

namespace Blkit

open List InMemoryStateStore

/-! ## The fold over the sorted records -/

/-- Task and field of a record. -/
def ValueRecord.place (r : ValueRecord) : String × String := (r.taskID, r.field)

lemma FieldValues.lookup_put (vs : FieldValues) (r : ValueRecord) (task field : String) :
    (vs.put r).lookup task field =
      if r.status = .committed ∧ r.place = (task, field) then some r.value
      else vs.lookup task field := by
  rw [put, ValueRecord.place]
  by_cases hs : r.status = .committed
  · by_cases ht : r.taskID = task
    · subst ht
      by_cases hf : r.field = field
      · subst hf
        simp [lookup, hs]
      · cases hv : vs r.taskID <;> simp [lookup, hs, hf, hv, Function.update_of_ne (Ne.symm hf)]
    · simp [lookup, hs, ht, Function.update_of_ne (Ne.symm ht)]
  · simp [hs]

lemma lookup_foldl_put (recs : List ValueRecord) (task field : String) :
    FieldValues.lookup (recs.foldl FieldValues.put fun _ => none) task field =
      (lastAt ValueRecord.place (recs.filter fun r => r.status = .committed) (task, field)).map
        fun r => r.value := by
  induction recs using reverseRecOn with
  | nil => rfl
  | append_singleton recs r ih =>
    rw [foldl_append, foldl_cons, foldl_nil, FieldValues.lookup_put, ih, filter_append]
    by_cases hs : r.status = .committed
    · by_cases hp : r.place = (task, field)
      all_goals simp [lastAt, hs, hp]
    · simp [hs]

/-- The value a record has at a place, if it is committed there. -/
def ValueRecord.committedAt (task field : String) (r : ValueRecord) : Option (List UInt8) :=
  if r.status = .committed ∧ r.place = (task, field) then some r.value else none

/-- The values at a place are those of the last record that is committed there. -/
lemma lookup_foldl_put_getLast? (recs : List ValueRecord) (task field : String) :
    FieldValues.lookup (recs.foldl FieldValues.put fun _ => none) task field =
      (recs.filterMap (ValueRecord.committedAt task field)).getLast? := by
  induction recs using reverseRecOn with
  | nil => rfl
  | append_singleton recs r ih =>
    rw [foldl_append, foldl_cons, foldl_nil, FieldValues.lookup_put, ih, filterMap_append]
    by_cases h : r.status = .committed ∧ r.place = (task, field)
    · have hr : r.committedAt task field = some r.value := if_pos h
      rw [if_pos h, filterMap_cons_some hr, getLast?_append]
      rfl
    · have hr : r.committedAt task field = none := if_neg h
      rw [if_neg h, filterMap_cons_none hr, filterMap_nil, append_nil]

/-- What the store holds for a task and a field of a run. -/
def InMemoryStateStore.held (s : InMemoryStateStore) (runID task field : String) :
    Option (List UInt8) :=
  (s.currentVersion runID).bind fun cv => cv.values.lookup task field

lemma InMemoryStateStore.held_eq (s : InMemoryStateStore) (runID task field : String) :
    s.held runID task field = (lastAt ValueRecord.place
        ((sortValueRecords (logOf (s.runs runID)).values).filter fun r => r.status = .committed)
        (task, field)).map fun r => r.value := by
  rw [held, currentVersion]
  cases h : s.runs runID with
  | none => rfl
  | some r => exact lookup_foldl_put _ task field

/-! ## Committed writes -/

/-- The first flip for the task after position `i` commits. -/
def CommittedFrom (es : List Event) (i : Nat) (task : String) : Prop :=
  ∃ j f, i < j ∧ es[j]? = some (.flip f) ∧ f.taskID = task ∧ f.newStatus = .committed ∧
    ∀ k g, i < k → k < j → es[k]? = some (.flip g) → g.taskID ≠ task

/-- The first flip for the task commits. -/
def FirstCommits (es : List Event) (task : String) : Prop :=
  ∃ (j : Nat) (f : StatusFlip), es[j]? = some (.flip f) ∧ f.taskID = task ∧
    f.newStatus = .committed ∧
      ∀ (k : Nat) (g : StatusFlip), k < j → es[k]? = some (.flip g) → g.taskID ≠ task

variable {es : List Event} {task : String}

/-- An event that is no flip for the task moves every position by one. -/
lemma firstCommits_cons {e : Event} (he : ∀ g : StatusFlip, e = .flip g → g.taskID ≠ task) :
    FirstCommits es task ↔ FirstCommits (e :: es) task := by
  constructor
  · rintro ⟨j, f, hj, hf, hc, hk⟩
    refine ⟨j + 1, f, hj, hf, hc, ?_⟩
    rintro (_ | k) g hlt hg
    · exact he g (Option.some.inj hg)
    · exact hk k g (Nat.lt_of_succ_lt_succ hlt) hg
  · rintro ⟨_ | j, f, hj, hf, hc, hk⟩
    · exact absurd hf (he f (Option.some.inj hj))
    · exact ⟨j, f, hj, hf, hc, fun k g hlt hg => hk (k + 1) g (Nat.succ_lt_succ hlt) hg⟩

lemma settled_eq_committed : settled es task = .committed ↔ FirstCommits es task := by
  induction es with
  | nil => simp [settled, FirstCommits]
  | cons e es ih =>
    cases e with
    | value w | history h =>
      rw [settled, ih]
      exact firstCommits_cons (by rintro g ⟨⟩)
    | flip f =>
      rw [settled]
      split
      case isTrue hf =>
        constructor
        · intro hc
          exact ⟨0, f, rfl, hf, hc, fun k g hlt => absurd hlt (Nat.not_lt_zero k)⟩
        · rintro ⟨_ | j, f', hj, hf', hc, hk⟩
          · cases hj
            exact hc
          · exact absurd hf (hk 0 f (Nat.succ_pos j) rfl)
      case isFalse hf =>
        rw [ih]
        exact firstCommits_cons (by rintro g ⟨⟩; exact hf)

variable {i : Nat}

lemma settled_drop_eq_committed :
    settled (es.drop (i + 1)) task = .committed ↔ CommittedFrom es i task := by
  rw [settled_eq_committed, FirstCommits]
  simp only [getElem?_drop]
  constructor
  · rintro ⟨j, f, hj, hf, hc, hk⟩
    refine ⟨i + 1 + j, f, by omega, hj, hf, hc, fun k g hik hkj hg => ?_⟩
    obtain ⟨d, rfl⟩ := Nat.exists_eq_add_of_lt hik
    exact hk d g (by omega) (by rwa [show i + 1 + d = i + d + 1 by omega])
  · rintro ⟨j, f, hij, hj, hf, hc, hk⟩
    obtain ⟨d, rfl⟩ := Nat.exists_eq_add_of_lt hij
    refine ⟨d, f, by rwa [show i + 1 + d = i + d + 1 by omega], hf, hc, fun k g hkd hg => ?_⟩
    exact hk (i + 1 + k) g (by omega) (by omega) hg

/-- The event at position `i` is a write to the field, and its first later flip commits
it. -/
structure CommittedWrite (es : List Event) (task field : String) (i : Nat) (w : ValueWrite) :
    Prop where
  written : es[i]? = some (.value w)
  task_eq : w.taskID = task
  field_eq : w.field = field
  committed : CommittedFrom es i task

/-- The record of the write at position `i`. -/
def recordAt (es : List Event) (i : Nat) (w : ValueWrite) : ValueRecord :=
  ⟨w, settled (es.drop (i + 1)) w.taskID, arrivals (es.take i) + 1⟩

/-- The committed records of a field are the records of the committed writes to it. -/
lemma committed_record_iff {field : String} {r : ValueRecord} :
    (r ∈ valuesFrom 0 es ∧ r.status = .committed) ∧ r.place = (task, field) ↔
      ∃ i w, CommittedWrite es task field i w ∧ r = recordAt es i w := by
  constructor
  · rintro ⟨⟨hr, hs⟩, hp⟩
    obtain ⟨i, w, hi, rfl⟩ := mem_valuesFrom.1 hr
    obtain ⟨rfl, rfl⟩ := Prod.mk.inj hp
    exact ⟨i, w, ⟨hi, rfl, rfl, settled_drop_eq_committed.1 hs⟩, by rw [recordAt, Nat.zero_add]⟩
  · rintro ⟨i, w, hw, rfl⟩
    refine ⟨⟨mem_valuesFrom.2 ⟨i, w, hw.written, by rw [recordAt, Nat.zero_add]⟩, ?_⟩, ?_⟩
    · exact settled_drop_eq_committed.2 (hw.task_eq ▸ hw.committed)
    · exact Prod.ext hw.task_eq hw.field_eq

/-- Arrival numbers order the writes as their positions do. -/
lemma seq_recordAt_le {j : Nat} {w w' : ValueWrite}
    (hi : es[i]? = some (.value w)) (hj : es[j]? = some (.value w')) :
    (recordAt es i w).seq ≤ (recordAt es j w').seq ↔ i ≤ j := by
  show arrivals (es.take i) + 1 ≤ arrivals (es.take j) + 1 ↔ i ≤ j
  rcases Nat.lt_trichotomy i j with h | rfl | h
  · have := arrivals_take_lt hi h
    omega
  · simp
  · have := arrivals_take_lt hj h
    omega

/-! ## The latest committed write -/

/-- `w`, at position `i`, is the latest committed write to the field, by timestamp and
then by arrival. -/
def LatestWrite (es : List Event) (task field : String) (i : Nat) (w : ValueWrite) : Prop :=
  CommittedWrite es task field i w ∧ ∀ j w', CommittedWrite es task field j w' →
    w'.timestamp.unixNano < w.timestamp.unixNano ∨
      w'.timestamp.unixNano = w.timestamp.unixNano ∧ j ≤ i

variable {r : ValueRecord}

/-- The committed records of a run in replay order. -/
private theorem mem_committed_sorted :
    r ∈ (sortValueRecords (valuesFrom 0 es)).filter
        (fun r => r.status = .committed) ↔
      r ∈ valuesFrom 0 es ∧ r.status = .committed := by
  rw [mem_filter, sortValueRecords, (sortReplay_perm _ _ _).mem_iff, decide_eq_true_iff]

lemma lastAt_sorted_iff {field : String} :
    lastAt ValueRecord.place ((sortValueRecords (valuesFrom 0 es)).filter
        fun r => r.status = .committed) (task, field) = some r ↔
      ∃ i w, LatestWrite es task field i w ∧
        r = recordAt es i w := by
  have hsorted : ((sortValueRecords (valuesFrom 0 es)).filter
      fun r => r.status = .committed).Pairwise fun a b =>
        replayKey a.timestamp a.seq ≤ replayKey b.timestamp b.seq :=
    (sortReplay_pairwise _ _ _).filter _
  rw [lastAt_eq_some_iff hsorted]
  · simp only [mem_committed_sorted]
    constructor
    · rintro ⟨hr, hmax⟩
      obtain ⟨i, w, hw, rfl⟩ := committed_record_iff.1 hr
      refine ⟨i, w, ⟨hw, fun j w' hw' => ?_⟩, rfl⟩
      obtain ⟨hmem, hplace⟩ := committed_record_iff.2 ⟨j, w', hw', rfl⟩
      have hle := replayKey_le.1 (hmax _ hmem hplace)
      exact hle.imp_right (And.imp_right (seq_recordAt_le hw'.written hw.written).1)
    · rintro ⟨i, w, ⟨hw, hmax⟩, rfl⟩
      refine ⟨committed_record_iff.2 ⟨i, w, hw, rfl⟩, fun y hy hp => ?_⟩
      obtain ⟨j, w', hw', rfl⟩ := committed_record_iff.1 ⟨hy, hp⟩
      refine replayKey_le.2 ((hmax j w' hw').imp_right (And.imp_right ?_))
      exact (seq_recordAt_le hw'.written hw.written).2
  · -- arrival numbers tell the records apart
    intro x hx y hy h
    exact eq_of_increasing (valuesFrom_pairwise 0 _) (mem_committed_sorted.1 hx).1
      (mem_committed_sorted.1 hy).1
      (Prod.mk.inj (toLex.injective h)).2

section Held

variable (calls : List StoreCall) (runID task field : String)

/-- After any calls, a field holds the value of the latest committed write to it. -/
lemma held_eq_some_iff (v : List UInt8) :
    (newInMemoryStateStore.exec calls).held runID task field = some v ↔
      ∃ i w, LatestWrite (eventsOf runID calls) task field i w ∧ w.value = v := by
  rw [held_eq, logOf_exec, Option.map_eq_some_iff]
  simp only [lastAt_sorted_iff]
  constructor
  · rintro ⟨_, ⟨i, w, hw, rfl⟩, rfl⟩
    exact ⟨i, w, hw, rfl⟩
  · rintro ⟨i, w, hw, rfl⟩
    exact ⟨_, ⟨i, w, hw, rfl⟩, rfl⟩

/-- After any calls, a field without a committed write to it holds nothing. -/
lemma held_eq_none_iff : (newInMemoryStateStore.exec calls).held runID task field = none ↔
      ¬ ∃ i w, CommittedWrite (eventsOf runID calls) task field i w := by
  rw [held_eq, logOf_exec, Option.map_eq_none_iff, ← Option.not_isSome_iff_eq_none,
    lastAt_isSome, not_iff_not]
  constructor
  · rintro ⟨r, hr, hp⟩
    obtain ⟨i, w, hw, -⟩ := committed_record_iff.1 ⟨mem_committed_sorted.1 hr, hp⟩
    exact ⟨i, w, hw⟩
  · rintro ⟨i, w, hw⟩
    obtain ⟨hr, hp⟩ := committed_record_iff.2 ⟨i, w, hw, rfl⟩
    exact ⟨_, mem_committed_sorted.2 hr, hp⟩

end Held

/-- After every sequence of calls, refused ones included, the current version of a run
holds for a field exactly the value of the latest committed write to it, nothing when
there is none, and all of it is decided by the calls as far as they concern the run. -/
theorem currentVersion_latest (calls : List StoreCall) (runID : String) :
    (∀ task field v, (newInMemoryStateStore.exec calls).held runID task field = some v ↔
      ∃ i w, LatestWrite (eventsOf runID calls) task field i w ∧ w.value = v) ∧
    (∀ task field, (newInMemoryStateStore.exec calls).held runID task field = none ↔
      ¬ ∃ i w, CommittedWrite (eventsOf runID calls) task field i w) ∧
    (newInMemoryStateStore.exec calls).currentVersion runID =
      (newInMemoryStateStore.exec (calls.filterMap (StoreCall.restrict runID))).currentVersion
        runID := by
  refine ⟨held_eq_some_iff calls runID, held_eq_none_iff calls runID, ?_⟩
  rw [currentVersion, currentVersion, exec_runs, exec_runs, foldl_callStep_restrict]

end Blkit
