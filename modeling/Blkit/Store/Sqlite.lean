import Blkit.Store.Sql

/-!
# The SQLite state store

`stores/sqlite/store.go`.  Timestamps are integers, the nanoseconds since 1970.
`CurrentVersion` numbers the committed rows of each task and field from the latest one
on and takes the rows with number one, in the order the database reports them.

For timestamps that the column can hold and payloads that are not empty, the store
refines the in-memory store on every run of which something is kept.  A run that was
only named by a status flip is unknown to this store.
-/

namespace Blkit

/-- The order in which the database reports the rows of a query without `ORDER BY`. -/
def QueryPlan := { plan : List ValueRow → List ValueRow // ∀ rows, (plan rows).Perm rows }

/-- The rows as they are. -/
def QueryPlan.direct : QueryPlan := ⟨id, fun _ => .refl _⟩

/-- The nanoseconds of the timestamp are an `int64`. -/
def GoTime.InRange (t : GoTime) : Prop := -2 ^ 63 ≤ t.unixNano ∧ t.unixNano < 2 ^ 63

/-- The timestamps of the metadata are in range. -/
def RunMetadata.InRange (m : RunMetadata) : Prop :=
  (∀ t ∈ m.publishedAt, t.InRange) ∧ (∀ t ∈ m.startedAt, t.InRange) ∧ ∀ t ∈ m.completedAt, t.InRange

/-- The timestamp of the event is in range, and a history entry has a payload. -/
def Event.InRange : Event → Prop
  | .value w => w.timestamp.InRange
  | .flip _ => True
  | .history h => h.payload ≠ [] ∧ h.timestamp.InRange

/-- The metadata with its timestamps in UTC. -/
def RunMetadata.utc (m : RunMetadata) : RunMetadata :=
  { m with
    publishedAt := m.publishedAt.map GoTime.utc
    startedAt := m.startedAt.map GoTime.utc
    completedAt := m.completedAt.map GoTime.utc }

namespace SqliteStore

open SqlStore

/-- `timePtrToNanos` and `nanosToTimePtr`. -/
def column : TimeColumn := ⟨GoTime.nanos, timeOfNanos⟩

/-- The store after a sequence of calls. -/
def exec (calls : List StoreCall) : SqlStore := new.exec column .all calls

/-- The window-function query of `CurrentVersion`. -/
def latestRows (plan : QueryPlan) (rows : List ValueRow) : List ValueRow :=
  plan.1 (firstRows place (placeBy (fun row => row.ts) fun row => row.id) rows)

/-- `CurrentVersion`. -/
def currentVersion (plan : QueryPlan) (s : SqlStore) (runID : String) : Option CurrentVersion :=
  s.currentVersion column (latestRows plan) runID

/-- `FullHistory`. -/
def fullHistory (s : SqlStore) (runID : String) : Except String (Option FullHistory) :=
  s.fullHistory column runID

lemma reports_latestRows (plan : QueryPlan) : Reports (latestRows plan) := by
  intro rows hrows
  have hperm := plan.2 (firstRows place (placeBy (fun row => row.ts) fun row => row.id) rows)
  constructor
  · rw [latestRows, (hperm.map place).nodup_iff]
    refine nodup_firstRows (fun a ha b hb hab => ?_) (nodup_of_increasing hrows).of_map
    exact eq_of_increasing hrows ha hb (congrArg (fun p => (ofLex p).2) hab)
  · intro row
    rw [latestRows, hperm.mem_iff, mem_firstRows]

/-! ## Timestamps in range -/

lemma kept_eq {t : GoTime} (h : t.InRange) : column.kept t = t.utc := by
  show (⟨t.nanos, 0⟩ : GoTime) = ⟨t.unixNano, 0⟩
  rw [GoTime.nanos_eq h]

lemma keptMetadata_eq {m : RunMetadata} (h : m.InRange) : keptMetadata column m = m.utc := by
  have hopt {o : Option GoTime} (ho : ∀ t ∈ o, t.InRange) : o.map column.kept = o.map GoTime.utc :=
    Option.map_congr fun t ht => kept_eq (ho t ht)
  rw [keptMetadata, RunMetadata.utc, hopt h.1, hopt h.2.1, hopt h.2.2]

section Log

variable {l : RunLog} (h : l.All RunMetadata.InRange Event.InRange)

include h

lemma replayValues_eq : l.replayValues column.bind = l.replayValues GoTime.unixNano := by
  refine stableSort_congr fun a ha b hb => ?_
  show a.1.timestamp.nanos ≤ b.1.timestamp.nanos ↔ _
  rw [GoTime.nanos_eq (h.values a ha), GoTime.nanos_eq (h.values b hb)]

lemma replayHistory_eq : l.replayHistory column.bind = l.replayHistory GoTime.unixNano := by
  refine stableSort_congr fun a ha b hb => ?_
  show a.timestamp.nanos ≤ b.timestamp.nanos ↔ _
  rw [GoTime.nanos_eq (h.history a ha).2, GoTime.nanos_eq (h.history b hb).2]

lemma values_utc : (l.replayValues column.bind).map
        (fun q => ({ q.1 with timestamp := column.kept q.1.timestamp }, q.2)) =
      (l.replayValues GoTime.unixNano).map
        fun q => ({ q.1 with timestamp := q.1.timestamp.utc }, q.2) := by
  rw [replayValues_eq h]
  refine List.map_congr_left fun q hq => ?_
  rw [kept_eq (h.values q (mem_stableSort.1 hq))]

lemma history_utc : (l.replayHistory column.bind).map
        (fun e => { e with payload := e.stored, timestamp := column.kept e.timestamp }) =
      (l.replayHistory GoTime.unixNano).map fun e => { e with timestamp := e.timestamp.utc } := by
  rw [replayHistory_eq h]
  refine List.map_congr_left fun e he => ?_
  obtain ⟨hpayload, hrange⟩ := h.history e (mem_stableSort.1 he)
  rw [kept_eq hrange, HistoryEntry.stored, List.isEmpty_eq_false_iff.2 hpayload]
  rfl

lemma metadata_eq (runID : String) : (l.metadata.map (keptMetadata column)).getD (.blank runID) =
      (l.metadata.getD (.blank runID)).utc := by
  cases hm : l.metadata with
  | none => rfl
  | some m => exact keptMetadata_eq (h.metadata m hm)

end Log

/-- The SQLite store refines the in-memory store. -/
theorem sqlite_refines_inMemory (plan : QueryPlan) (calls : List StoreCall)
    (hcalls : ∀ c ∈ calls, c.All RunMetadata.InRange Event.InRange) (runID : String)
    (hrun : (runLog runID calls).stored = true) :
    currentVersion plan (exec calls) runID =
      ((newInMemoryStateStore.exec calls).currentVersion runID).map
        (fun cv => { cv with metadata := cv.metadata.utc }) ∧
    ∃ o, fullHistory (exec calls) runID = .ok o ∧
      o.map FullHistory.served = ((newInMemoryStateStore.exec calls).fullHistory runID).map
        fun fh => { fh.served.utc with metadata := fh.metadata.utc } := by
  have hall := runLog_all runID hcalls
  have hacc : ∀ c ∈ calls, c.Accepted .all := by
    intro c _
    cases c with
    | save m => rfl
    | writeBatch ops => exact fun _ _ _ _ => rfl
  obtain ⟨vs, hs, hold⟩ := @tracks_exec column .all calls hacc runID
  have hops : opsOn runID calls ≠ [] := by
    intro hnil
    rw [runLog, hnil] at hrun
    cases hrun
  have hserved := congrArg (Option.map fun v : Served => { v.utc with metadata := v.metadata.utc })
    (inMemory_served calls runID)
  rw [Option.map_map, if_neg hops] at hserved
  refine ⟨?_, _, hold.fullHistory, ?_⟩
  · rw [currentVersion, exec, hold.currentVersion (reports_latestRows plan), inMemory_current,
      if_neg hops, hrun, if_pos rfl, metadata_eq hall, RunLog.current, replayValues_eq hall]
    rfl
  · refine Eq.trans ?_ hserved.symm
    rw [hrun, if_pos rfl, metadata_eq hall, Option.map_some, FullHistory.served,
      bare_sorted hold.values_bare, entry_sorted hold.history_bare, values_utc hall,
      history_utc hall]
    rfl

/-- A write and its commit, on the direct plan. -/
theorem sqlite_refines_inMemory_commit : currentVersion .direct
        (exec [.writeBatch [taskOp "a" "t", commitOp "a" "t"]]) "a" =
      ((newInMemoryStateStore.exec
        [.writeBatch [taskOp "a" "t", commitOp "a" "t"]]).currentVersion
          "a").map fun cv => { cv with metadata := cv.metadata.utc } := by
  refine (sqlite_refines_inMemory .direct _ ?_ "a" rfl).1
  rw [List.forall_mem_singleton]
  refine List.forall_mem_cons.2 ⟨?_, List.forall_mem_singleton.2 ?_⟩
  · rintro e ⟨⟩
    exact ⟨by decide, by decide⟩
  · rintro e ⟨⟩
    exact trivial

end SqliteStore

end Blkit
