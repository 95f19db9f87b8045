import Blkit.Data.Assoc
import Blkit.Data.Fallible
import Blkit.Store.Record

/-!
# The in-memory state store

`core/in_memory_state_store.go`.  The store is a map from run ids to runs; a run holds
its metadata and a log of records.  The arrival number is a `uint64` in the source; it
counts the records held in memory, of which there are never that many.

Every call is described by what it does to a single run (`callStep`), so that a fact
about a run never looks at the rest of the store.
-/

namespace Blkit

open List

/-- The records of a run, with the last arrival number given out. -/
structure Log where
  values : List ValueRecord
  history : List HistoryRecord
  seq : Nat
deriving DecidableEq, Repr

/-- `inMemoryRun`. -/
structure InMemoryRun extends Log where
  metadata : RunMetadata
  hasMeta : Bool
deriving DecidableEq, Repr

/-- The store: what is known of each run. -/
@[ext]
structure InMemoryStateStore where
  runs : String → Option InMemoryRun

/-- `NewInMemoryStateStore`. -/
def newInMemoryStateStore : InMemoryStateStore := ⟨fun _ => none⟩

/-- A run that has just been heard of. -/
def newRun (runID : String) : InMemoryRun where
  values := []
  history := []
  seq := 0
  metadata := .blank runID
  hasMeta := false

/-- One round of the loop a status flip runs over the records. -/
def StatusFlip.settle (f : StatusFlip) (r : ValueRecord) : ValueRecord :=
  if r.taskID = f.taskID ∧ r.status = .pending then { r with status := f.newStatus } else r

/-- What `WriteBatch` does to the records of a run for one operation. -/
def Log.apply (l : Log) : Event → Log
  | .value w => { l with seq := l.seq + 1, values := l.values ++ [⟨w, .pending, l.seq + 1⟩] }
  | .flip f => { l with values := l.values.map f.settle }
  | .history h => { l with seq := l.seq + 1, history := l.history ++ [⟨h, l.seq + 1⟩] }

namespace InMemoryStateStore

/-- `run`: the run, created when it is missing, with a change made to it. -/
def modify (s : InMemoryStateStore) (runID : String) (f : InMemoryRun → InMemoryRun) :
    InMemoryStateStore :=
  ⟨Function.update s.runs runID (some (f ((s.runs runID).getD (newRun runID))))⟩

/-- `Save`. -/
def save (s : InMemoryStateStore) (m : RunMetadata) : Except String Unit × InMemoryStateStore :=
  if m.runID = "" then (.error "save: empty RunID", s)
  else (.ok (), s.modify m.runID fun r => { r with metadata := m, hasMeta := true })

/-- One round of the second loop of `WriteBatch`.  A missing payload would be a nil
dereference there, which the first loop has excluded. -/
def applyOp (s : InMemoryStateStore) (op : WriteOp) : InMemoryStateStore :=
  s.modify op.runID fun r => { r with toLog := (op.event?).elim r.toLog r.toLog.apply }

/-- `WriteBatch`. -/
def writeBatch (s : InMemoryStateStore) (ops : List WriteOp) :
    Except String Unit × InMemoryStateStore :=
  match ops.forM validateWriteOp with
  | .error e => (.error e, s)
  | .ok () => (.ok (), ops.foldl applyOp s)

end InMemoryStateStore

/-- `map[string]map[string][]byte`: values by task and field. -/
abbrev FieldValues := String → Option (String → Option (List UInt8))

/-- The value held for a task and a field. -/
def FieldValues.lookup (vs : FieldValues) (task field : String) : Option (List UInt8) :=
  (vs task).bind fun fields => fields field

/-- One round of the loop of `CurrentVersion`. -/
def FieldValues.put (vs : FieldValues) (r : ValueRecord) : FieldValues :=
  if r.status ≠ .committed then vs
  else
    let task := (vs r.taskID).getD fun _ => none
    Function.update vs r.taskID (some (Function.update task r.field (some r.value)))

/-- `CurrentVersion`, the result type. -/
structure CurrentVersion where
  metadata : RunMetadata
  values : FieldValues

/-- `FullHistory`, the result type. -/
structure FullHistory where
  metadata : RunMetadata
  values : List ValueRecord
  history : List HistoryRecord
deriving DecidableEq, Repr

namespace InMemoryStateStore

/-- `CurrentVersion`; an unknown run has none. -/
def currentVersion (s : InMemoryStateStore) (runID : String) : Option CurrentVersion :=
  (s.runs runID).map fun r =>
    ⟨r.metadata, (sortValueRecords r.values).foldl FieldValues.put fun _ => none⟩

/-- `FullHistory`; an unknown run has none. -/
def fullHistory (s : InMemoryStateStore) (runID : String) : Option FullHistory :=
  (s.runs runID).map fun r => ⟨r.metadata, sortValueRecords r.values, sortHistoryRecords r.history⟩

end InMemoryStateStore

/-! ## Calls -/

/-- A call that may change the store. -/
inductive StoreCall where
  | save (m : RunMetadata)
  | writeBatch (ops : List WriteOp)
deriving DecidableEq, Repr

/-- The store after a call, whether or not the call returned an error. -/
def InMemoryStateStore.call (s : InMemoryStateStore) : StoreCall → InMemoryStateStore
  | .save m => (s.save m).2
  | .writeBatch ops => (s.writeBatch ops).2

/-- The store after a sequence of calls. -/
def InMemoryStateStore.exec (s : InMemoryStateStore) (calls : List StoreCall) :
    InMemoryStateStore := calls.foldl call s

/-- What one operation does to what is known of a run. -/
def opStep (runID : String) (o : Option InMemoryRun) (op : WriteOp) : Option InMemoryRun :=
  if op.runID = runID then
    let r := o.getD (newRun runID)
    some { r with toLog := (op.event?).elim r.toLog r.toLog.apply }
  else o

/-- What a call does to what is known of a run. -/
def callStep (runID : String) (o : Option InMemoryRun) : StoreCall → Option InMemoryRun
  | .save m =>
    if m.runID = runID ∧ m.runID ≠ "" then
      some { o.getD (newRun runID) with metadata := m, hasMeta := true }
    else o
  | .writeBatch ops => if ∀ op ∈ ops, op.Valid then ops.foldl (opStep runID) o else o

lemma forM_validateWriteOp {ops : List WriteOp} :
    ops.forM validateWriteOp = .ok () ↔ ∀ op ∈ ops, op.Valid := by
  induction ops with
  | nil => simp [List.forM]
  | cons op ops ih =>
    rw [List.forM, Fallible.bind_eq_ok, List.forall_mem_cons, ← ih]
    constructor
    · rintro ⟨_, hop, hops⟩
      exact ⟨hop, hops⟩
    · rintro ⟨hop, hops⟩
      exact ⟨(), hop, hops⟩

namespace InMemoryStateStore

variable {s : InMemoryStateStore} {runID : String} {ops : List WriteOp}

lemma writeBatch_valid (h : ∀ op ∈ ops, op.Valid) :
    s.writeBatch ops = (.ok (), ops.foldl applyOp s) := by
  rw [writeBatch, forM_validateWriteOp.2 h]

/-- A batch with an invalid operation is refused and changes nothing. -/
lemma writeBatch_invalid (h : ¬ ∀ op ∈ ops, op.Valid) : ∃ e, s.writeBatch ops = (.error e, s) := by
  rw [writeBatch]
  cases hv : ops.forM validateWriteOp with
  | error e => exact ⟨e, rfl⟩
  | ok u => exact absurd (forM_validateWriteOp.1 hv) h

lemma foldl_applyOp_runs (ops : List WriteOp) :
    (ops.foldl applyOp s).runs runID = ops.foldl (opStep runID) (s.runs runID) := by
  induction ops generalizing s with
  | nil => rfl
  | cons op ops ih =>
    rw [foldl_cons, foldl_cons, ih, applyOp, modify, opStep]
    by_cases h : op.runID = runID
    · subst h
      simp
    · simp [h, Function.update_of_ne (Ne.symm h)]

/-- A call does to each run what `callStep` says. -/
lemma call_runs (c : StoreCall) : (s.call c).runs runID = callStep runID (s.runs runID) c := by
  cases c with
  | save m =>
    rw [call, save, callStep]
    by_cases h : m.runID = ""
    · simp [h]
    · by_cases hr : m.runID = runID
      · subst hr
        simp [h, modify]
      · simp [h, hr, modify, Function.update_of_ne (Ne.symm hr)]
  | writeBatch ops =>
    rw [call, callStep]
    split
    case isTrue h => rw [writeBatch_valid h, foldl_applyOp_runs]
    case isFalse h =>
      obtain ⟨e, he⟩ := writeBatch_invalid (s := s) h
      rw [he]

lemma exec_runs (calls : List StoreCall) :
    (s.exec calls).runs runID = calls.foldl (callStep runID) (s.runs runID) := by
  induction calls generalizing s with
  | nil => rfl
  | cons c calls ih =>
    have hexec : s.exec (c :: calls) = (s.call c).exec calls := rfl
    rw [hexec, ih, call_runs, foldl_cons]

end InMemoryStateStore

/-! ## Operations on other runs -/

lemma foldl_opStep_filter (runID : String) (o : Option InMemoryRun) (ops : List WriteOp) :
    (ops.filter fun op => op.runID = runID).foldl (opStep runID) o =
      ops.foldl (opStep runID) o := by
  induction ops generalizing o with
  | nil => rfl
  | cons op ops ih =>
    by_cases h : op.runID = runID
    · rw [filter_cons_of_pos (by simpa using h), foldl_cons, foldl_cons, ih]
    · rw [filter_cons_of_neg (by simpa using h), foldl_cons, ih]
      simp [opStep, h]

lemma foldl_opStep_other {runID : String} {ops : List WriteOp}
    (h : ∀ op ∈ ops, op.runID ≠ runID) (o : Option InMemoryRun) :
    ops.foldl (opStep runID) o = o := by
  rw [← foldl_opStep_filter, filter_eq_nil_iff.2 (by simpa using h)]
  rfl

/-- The part of a call that concerns a run: nothing of a refused batch, and of an
accepted one the operations on the run. -/
def StoreCall.restrict (runID : String) : StoreCall → Option StoreCall
  | .save m => if m.runID = runID then some (.save m) else none
  | .writeBatch ops =>
    if ∀ op ∈ ops, op.Valid then some (.writeBatch (ops.filter fun op => op.runID = runID))
    else none

lemma callStep_restrict (runID : String) (o : Option InMemoryRun) (c : StoreCall) :
    callStep runID o c = (c.restrict runID).elim o (callStep runID o) := by
  cases c with
  | save m =>
    rw [StoreCall.restrict]
    split
    case isTrue h => rfl
    case isFalse h => simp [callStep, h]
  | writeBatch ops =>
    rw [StoreCall.restrict]
    split
    case isTrue h =>
      have hf : ∀ op ∈ ops.filter (fun op => op.runID = runID), op.Valid := fun op hop =>
        h op (mem_filter.1 hop).1
      simp only [Option.elim, callStep]
      rw [if_pos h, if_pos hf, foldl_opStep_filter]
    case isFalse h => simp only [Option.elim, callStep, if_neg h]

/-- What becomes of a run is decided by the calls restricted to it. -/
lemma foldl_callStep_restrict (runID : String) (o : Option InMemoryRun) (calls : List StoreCall) :
    (calls.filterMap (StoreCall.restrict runID)).foldl (callStep runID) o =
      calls.foldl (callStep runID) o := by
  induction calls generalizing o with
  | nil => rfl
  | cons c calls ih =>
    rw [foldl_cons, callStep_restrict, filterMap_cons]
    cases c.restrict runID with
    | none => exact ih o
    | some c' => exact ih _

end Blkit
