import Blkit.Store.History

/-!
# What a run has been told

The contract the state stores share (`specs/state-stores/overview.spec.md`), without
arrival numbers: a run log keeps the metadata that was saved last and lists writes
and history entries as they arrived; reading brings the records into the order of
their timestamps and leaves records with one timestamp as they arrived.

A backend is described by the function that gives the timestamp it sorts by.  The
in-memory store sorts by the instant itself.
-/

namespace Blkit

open List

/-- A history without its arrival numbers. -/
structure Served where
  metadata : RunMetadata
  values : List (ValueWrite × ValueStatus)
  history : List HistoryEntry
deriving DecidableEq, Repr

/-- The record without its arrival number. -/
def ValueRecord.bare (r : ValueRecord) : ValueWrite × ValueStatus := (r.toValueWrite, r.status)

/-- The history without its arrival numbers. -/
def FullHistory.served (fh : FullHistory) : Served :=
  ⟨fh.metadata, fh.values.map ValueRecord.bare, fh.history.map fun r => r.toHistoryEntry⟩

/-- `t.UTC()`. -/
def GoTime.utc (t : GoTime) : GoTime := ⟨t.unixNano, 0⟩

/-- The history with its timestamps in UTC: times are compared as instants. -/
def Served.utc (v : Served) : Served where
  metadata := v.metadata
  values := v.values.map fun q => ({ q.1 with timestamp := q.1.timestamp.utc }, q.2)
  history := v.history.map fun h => { h with timestamp := h.timestamp.utc }

/-- What has arrived for a run. -/
@[ext]
structure RunLog where
  metadata : Option RunMetadata
  values : List (ValueWrite × ValueStatus)
  history : List HistoryEntry
deriving DecidableEq, Repr

/-- An operation on one run. -/
inductive RunOp where
  | save (m : RunMetadata)
  | event (e : Event)
deriving DecidableEq, Repr

/-- What a flip does to one write. -/
def StatusFlip.settleWrite (f : StatusFlip) (q : ValueWrite × ValueStatus) :
    ValueWrite × ValueStatus :=
  if q.1.taskID = f.taskID ∧ q.2 = .pending then (q.1, f.newStatus) else q

namespace RunLog

/-- Nothing has arrived. -/
def empty : RunLog := ⟨none, [], []⟩

/-- An event arrives. -/
def apply (l : RunLog) : Event → RunLog
  | .value w => { l with values := l.values ++ [(w, .pending)] }
  | .flip f => { l with values := l.values.map f.settleWrite }
  | .history h => { l with history := l.history ++ [h] }

/-- An operation arrives. -/
def step (l : RunLog) : RunOp → RunLog
  | .save m => { l with metadata := some m }
  | .event e => l.apply e

/-- Something is kept of the run. -/
def stored (l : RunLog) : Bool := l.metadata.isSome || !l.values.isEmpty || !l.history.isEmpty

lemma not_stored {l : RunLog} (h : l.stored = false) :
    l.metadata = none ∧ l.values = [] ∧ l.history = [] := by
  simpa [stored, and_assoc] using h

section Replay

variable {K : Type} [LinearOrder K] (time : GoTime → K) (l : RunLog)

/-- The writes in replay order. -/
def replayValues : List (ValueWrite × ValueStatus) :=
  stableSort (fun q => time q.1.timestamp) l.values

/-- The history entries in replay order. -/
def replayHistory : List HistoryEntry := stableSort (fun h => time h.timestamp) l.history

/-- The full history of the run. -/
def serve (runID : String) : Served :=
  ⟨l.metadata.getD (.blank runID), l.replayValues time, l.replayHistory time⟩

/-- The value of each task and field after replay. -/
def current : FieldValues :=
  (l.replayValues time).foldl (fun vs q => vs.put ⟨q.1, q.2, 0⟩) fun _ => none

end Replay

end RunLog

/-! ## Calls -/

/-- The operations of an accepted call on a run. -/
def StoreCall.opsOn (runID : String) : StoreCall → List RunOp
  | .save m => if m.runID = runID ∧ m.runID ≠ "" then [.save m] else []
  | .writeBatch ops =>
    if ∀ op ∈ ops, op.Valid then
      ((ops.filter fun op => op.runID = runID).filterMap WriteOp.event?).map .event
    else []

/-- The operations on a run of a sequence of calls. -/
def opsOn (runID : String) (calls : List StoreCall) : List RunOp :=
  calls.flatMap (StoreCall.opsOn runID)

/-- What has arrived for a run after a sequence of calls. -/
def runLog (runID : String) (calls : List StoreCall) : RunLog :=
  (opsOn runID calls).foldl RunLog.step .empty

/-- A batch of valid operations mentions a run exactly when it has an event for it. -/
lemma any_runID {ops : List WriteOp} (hops : ∀ op ∈ ops, op.Valid) {runID : String} :
    (ops.any fun op => op.runID = runID) =
      !((ops.filter fun op => op.runID = runID).filterMap WriteOp.event?).isEmpty := by
  rw [Bool.eq_iff_iff, Bool.not_eq_true', any_eq_true]
  constructor
  · rintro ⟨op, hop, hr⟩
    obtain ⟨e, he, -⟩ := (hops op hop).event
    refine isEmpty_eq_false_iff_exists_mem.2 ⟨e, mem_filterMap.2 ⟨op, ?_, he⟩⟩
    exact mem_filter.2 ⟨hop, hr⟩
  · intro hne
    obtain ⟨e, he⟩ := isEmpty_eq_false_iff_exists_mem.1 hne
    obtain ⟨op, hop, -⟩ := mem_filterMap.1 he
    exact ⟨op, mem_filter.1 hop⟩

lemma runLog_append_singleton (runID : String) (calls : List StoreCall) (c : StoreCall) :
    runLog runID (calls ++ [c]) = (c.opsOn runID).foldl RunLog.step (runLog runID calls) := by
  rw [runLog, runLog, opsOn, flatMap_append, foldl_append]
  simp [opsOn]

/-- A run is heard of before or with the last call. -/
lemma heard_append_singleton (runID : String) (calls : List StoreCall) (c : StoreCall) :
    (!(opsOn runID (calls ++ [c])).isEmpty) =
      (!(opsOn runID calls).isEmpty || !(c.opsOn runID).isEmpty) := by
  have hsplit : opsOn runID (calls ++ [c]) = opsOn runID calls ++ c.opsOn runID := by
    simp [opsOn]
  rw [hsplit]
  cases opsOn runID calls <;> rfl

section All

variable {Q : RunMetadata → Prop} {P : Event → Prop}

/-- The metadata and the events a log comes from have the properties `Q` and `P`. -/
structure RunLog.All (Q : RunMetadata → Prop) (P : Event → Prop) (l : RunLog) : Prop where
  metadata : ∀ m, l.metadata = some m → Q m
  values : ∀ q ∈ l.values, P (.value q.1)
  history : ∀ h ∈ l.history, P (.history h)

/-- The metadata and the events of a call have the properties `Q` and `P`. -/
def StoreCall.All (Q : RunMetadata → Prop) (P : Event → Prop) : StoreCall → Prop
  | .save m => Q m
  | .writeBatch ops => ∀ op ∈ ops, ∀ e, op.event? = some e → P e

variable {l : RunLog}

lemma RunLog.All.imp {P' : Event → Prop} (h : l.All Q P) (hP : ∀ e, P e → P' e) : l.All Q P' :=
  ⟨h.metadata, fun q hq => hP _ (h.values q hq), fun e he => hP _ (h.history e he)⟩

lemma RunLog.All.apply (h : l.All Q P) {e : Event} (he : P e) : (l.apply e).All Q P := by
  cases e with
  | value w =>
    refine ⟨h.metadata, ?_, h.history⟩
    rw [RunLog.apply, forall_mem_concat]
    exact ⟨h.values, he⟩
  | flip f =>
    refine ⟨h.metadata, ?_, h.history⟩
    rw [RunLog.apply, forall_mem_map]
    intro q hq
    rw [StatusFlip.settleWrite]
    split <;> exact h.values q hq
  | history e =>
    refine ⟨h.metadata, h.values, ?_⟩
    rw [RunLog.apply, forall_mem_concat]
    exact ⟨h.history, he⟩

lemma RunLog.All.foldl_apply (h : l.All Q P) {es : List Event} (hes : ∀ e ∈ es, P e) :
    (es.foldl RunLog.apply l).All Q P := by
  induction es generalizing l with
  | nil => exact h
  | cons e es ih =>
    rw [forall_mem_cons] at hes
    exact ih (h.apply hes.1) hes.2

lemma runLog_all (runID : String) {calls : List StoreCall} (h : ∀ c ∈ calls, c.All Q P) :
    (runLog runID calls).All Q P := by
  induction calls using reverseRecOn with
  | nil => exact ⟨nofun, nofun, nofun⟩
  | append_singleton calls c ih =>
    rw [forall_mem_concat] at h
    have hold := ih h.1
    rw [runLog_append_singleton]
    cases c with
    | save m =>
      rw [StoreCall.opsOn]
      split
      · refine ⟨?_, hold.values, hold.history⟩
        rintro m' ⟨⟩
        exact h.2
      · exact hold
    | writeBatch ops =>
      rw [StoreCall.opsOn]
      split
      · rw [foldl_map]
        refine hold.foldl_apply fun e he => ?_
        obtain ⟨op, hop, he⟩ := mem_filterMap.1 he
        exact h.2 op (mem_filter.1 hop).1 e he
      · exact hold

end All

/-! ## The in-memory store -/

@[simp] lemma StatusFlip.taskID_settle (f : StatusFlip) (r : ValueRecord) :
    (f.settle r).taskID = r.taskID := by
  rw [StatusFlip.settle]
  split <;> rfl

@[simp] lemma StatusFlip.seq_settle (f : StatusFlip) (r : ValueRecord) :
    (f.settle r).seq = r.seq := by
  rw [StatusFlip.settle]
  split <;> rfl

lemma StatusFlip.bare_settle (f : StatusFlip) (r : ValueRecord) :
    (f.settle r).bare = f.settleWrite r.bare := by
  rw [StatusFlip.settle, StatusFlip.settleWrite]
  by_cases h : r.taskID = f.taskID ∧ r.status = .pending
  · rw [if_pos h]
    exact (if_pos h).symm
  · rw [if_neg h]
    exact (if_neg h).symm

/-- What the in-memory store keeps of a run. -/
def InMemoryRun.runLog (r : InMemoryRun) : RunLog where
  metadata := if r.hasMeta then some r.metadata else none
  values := r.values.map ValueRecord.bare
  history := r.history.map fun h => h.toHistoryEntry

/-- The store holds the log `l` of a run, of which it has heard iff `heard`. -/
structure InMemoryHolds (runID : String) (o : Option InMemoryRun) (heard : Bool) (l : RunLog) :
    Prop where
  isSome : o.isSome = heard
  runLog : (o.getD (newRun runID)).runLog = l
  metadata : (o.getD (newRun runID)).metadata = l.metadata.getD (.blank runID)

section InMemory

variable {runID : String} {o : Option InMemoryRun} {heard : Bool} {l : RunLog}

lemma InMemoryHolds.save (h : InMemoryHolds runID o heard l) (m : RunMetadata) :
    InMemoryHolds runID (some { o.getD (newRun runID) with metadata := m, hasMeta := true }) true
      (l.step (.save m)) := by
  refine ⟨rfl, ?_, rfl⟩
  rw [← h.runLog]
  rfl

lemma InMemoryHolds.apply (h : InMemoryHolds runID o heard l) (e : Event) : InMemoryHolds runID
      (some { o.getD (newRun runID) with toLog := (o.getD (newRun runID)).toLog.apply e }) true
      (l.step (.event e)) := by
  refine ⟨rfl, ?_, ?_⟩
  · rw [← h.runLog, RunLog.step]
    cases e with
    | value w => simp [InMemoryRun.runLog, Log.apply, RunLog.apply, ValueRecord.bare]
    | flip f =>
      simp only [InMemoryRun.runLog, Log.apply, RunLog.apply, Option.getD_some, map_map]
      congr 1
      exact map_congr_left fun r _ => f.bare_settle r
    | history h => simp [InMemoryRun.runLog, Log.apply, RunLog.apply]
  · have hm := h.metadata
    cases e <;> exact hm

lemma InMemoryHolds.foldl_opStep {ops : List WriteOp} (hops : ∀ op ∈ ops, op.Valid)
    (h : InMemoryHolds runID o heard l) :
    InMemoryHolds runID (ops.foldl (opStep runID) o) (heard || (ops.any fun op => op.runID = runID))
      (((ops.filter fun op => op.runID = runID).filterMap WriteOp.event?).foldl
        RunLog.apply l) := by
  induction ops generalizing o heard l with
  | nil => simpa using h
  | cons op ops ih =>
    rw [forall_mem_cons] at hops
    obtain ⟨e, he, -⟩ := hops.1.event
    by_cases hr : op.runID = runID
    · have hstep := ih hops.2 (h.apply e)
      simpa [opStep, hr, he, RunLog.step] using hstep
    · simpa [opStep, hr] using ih hops.2 h

/-- A call does to the run what its operations on the run say. -/
lemma InMemoryHolds.callStep (h : InMemoryHolds runID o heard l) (c : StoreCall) :
    InMemoryHolds runID (callStep runID o c) (heard || !(c.opsOn runID).isEmpty)
      ((c.opsOn runID).foldl RunLog.step l) := by
  cases c with
  | save m =>
    rw [Blkit.callStep, StoreCall.opsOn]
    split
    · simpa using h.save m
    · simpa using h
  | writeBatch ops =>
    rw [Blkit.callStep, StoreCall.opsOn]
    split
    case isFalse => simpa using h
    case isTrue hops =>
      have hfold := h.foldl_opStep hops
      rw [any_runID hops] at hfold
      rw [foldl_map, isEmpty_map]
      exact hfold

lemma inMemoryHolds_exec (runID : String) (calls : List StoreCall) :
    InMemoryHolds runID ((newInMemoryStateStore.exec calls).runs runID)
      (!(opsOn runID calls).isEmpty) (runLog runID calls) := by
  rw [InMemoryStateStore.exec_runs]
  induction calls using reverseRecOn with
  | nil => exact ⟨rfl, rfl, rfl⟩
  | append_singleton calls c ih =>
    rw [foldl_append, runLog_append_singleton, heard_append_singleton]
    exact ih.callStep c

end InMemory

variable {α : Type}

lemma sortReplay_eq_stableSort (time : α → GoTime) (seq : α → Nat) (recs : List α) :
    sortReplay time seq recs = stableSort (fun a => replayKey (time a) (seq a)) recs := by
  have hle (a b : α) : (!replayLess (time b) (time a) (seq b) (seq a)) = true ↔
      replayKey (time a) (seq a) ≤ replayKey (time b) (seq b) := by
    rw [Bool.not_eq_true', ← Bool.not_eq_true, replayLess_iff, not_lt]
  have hmap := map_insertionSort
    (fun a b => (!replayLess (time b) (time a) (seq b) (seq a)) = true)
    (fun a b => replayKey (time a) (seq a) ≤ replayKey (time b) (seq b)) id recs
    fun a _ b _ => hle a b
  rwa [map_id, map_id] at hmap

variable {seq : α → Nat} {recs : List α}

/-- Records in the order of arrival, sorted for replay. -/
lemma sortReplay_eq (time : α → GoTime) (h : recs.Pairwise fun a b => seq a < seq b) :
    sortReplay time seq recs = stableSort (fun a => (time a).unixNano) recs :=
  eq_stableSort h (sortReplay_strict time seq h) fun _ => (sortReplay_perm time seq recs).mem_iff

/-- Records that are listed in any order, sorted for replay. -/
lemma sortReplay_of_perm {time : α → GoTime} {recs' : List α} (hperm : recs.Perm recs')
    (h : recs'.Pairwise fun a b => replayKey (time a) (seq a) < replayKey (time b) (seq b)) :
    sortReplay time seq recs = recs' := by
  refine ((sortReplay_perm time seq recs).trans hperm).eq_of_pairwise (fun a b ha hb hab hba => ?_)
    (sortReplay_pairwise time seq recs) (h.imp le_of_lt)
  have ha := hperm.mem_iff.1 ((sortReplay_perm time seq recs).mem_iff.1 ha)
  exact eq_of_increasing (f := fun a => replayKey (time a) (seq a)) h ha hb (le_antisymm hab hba)

section Serves

variable (calls : List StoreCall) (runID : String) {r : InMemoryRun}

lemma inMemory_records (hr : (newInMemoryStateStore.exec calls).runs runID = some r) :
    ((r.values.Pairwise fun a b => a.seq < b.seq) ∧
      r.values.map ValueRecord.bare = (runLog runID calls).values) ∧
    (r.history.Pairwise fun a b => a.seq < b.seq) ∧
      r.history.map (fun h => h.toHistoryEntry) = (runLog runID calls).history := by
  have hlog := logOf_exec runID calls
  have hheld := (inMemoryHolds_exec runID calls).runLog
  rw [hr] at hlog hheld
  refine ⟨⟨?_, congrArg RunLog.values hheld⟩, ?_, congrArg RunLog.history hheld⟩
  · rw [show r.values = valuesFrom 0 (eventsOf runID calls) from congrArg Log.values hlog]
    exact valuesFrom_pairwise _ _
  · rw [show r.history = historyFrom 0 (eventsOf runID calls) from congrArg Log.history hlog]
    exact (historyFrom_pairwise _ _).2

lemma bare_sortValueRecords (hr : (newInMemoryStateStore.exec calls).runs runID = some r) :
    (sortValueRecords r.values).map ValueRecord.bare =
      (runLog runID calls).replayValues GoTime.unixNano := by
  obtain ⟨horder, hbare⟩ := (inMemory_records calls runID hr).1
  rw [sortValueRecords, sortReplay_eq _ horder, RunLog.replayValues, ← hbare]
  exact map_stableSort (fun q : ValueWrite × ValueStatus => q.1.timestamp.unixNano)
    ValueRecord.bare _

lemma bare_sortHistoryRecords (hr : (newInMemoryStateStore.exec calls).runs runID = some r) :
    (sortHistoryRecords r.history).map (fun h => h.toHistoryEntry) =
      (runLog runID calls).replayHistory GoTime.unixNano := by
  obtain ⟨horder, hentry⟩ := (inMemory_records calls runID hr).2
  rw [sortHistoryRecords, sortReplay_eq _ horder, RunLog.replayHistory, ← hentry]
  exact map_stableSort (fun h : HistoryEntry => h.timestamp.unixNano)
    (fun h : HistoryRecord => h.toHistoryEntry) _

/-- The in-memory store serves a run it has heard of in the order of instants. -/
lemma inMemory_served :
    ((newInMemoryStateStore.exec calls).fullHistory runID).map FullHistory.served =
      if opsOn runID calls = [] then none
      else some ((runLog runID calls).serve GoTime.unixNano runID) := by
  have h := (inMemoryHolds_exec runID calls).isSome
  have hmeta := (inMemoryHolds_exec runID calls).metadata
  rw [InMemoryStateStore.fullHistory]
  cases hr : (newInMemoryStateStore.exec calls).runs runID with
  | none =>
    rw [hr] at h
    rw [if_pos (by simpa using h)]
    rfl
  | some r =>
    rw [hr] at h hmeta
    rw [if_neg (by simpa using h), RunLog.serve, ← bare_sortValueRecords calls runID hr,
      ← bare_sortHistoryRecords calls runID hr, ← hmeta]
    rfl

lemma inMemory_current :
    (newInMemoryStateStore.exec calls).currentVersion runID =
      if opsOn runID calls = [] then none
      else some ⟨(runLog runID calls).metadata.getD (.blank runID),
        (runLog runID calls).current GoTime.unixNano⟩ := by
  have h := (inMemoryHolds_exec runID calls).isSome
  have hmeta := (inMemoryHolds_exec runID calls).metadata
  rw [InMemoryStateStore.currentVersion]
  cases hr : (newInMemoryStateStore.exec calls).runs runID with
  | none =>
    rw [hr] at h
    rw [if_pos (by simpa using h)]
    rfl
  | some r =>
    rw [hr] at h hmeta
    rw [if_neg (by simpa using h), RunLog.current, ← bare_sortValueRecords calls runID hr, ← hmeta,
      foldl_map]
    rfl

end Serves

end Blkit
