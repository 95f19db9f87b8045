import Blkit.Order.Ranked
import Blkit.Store.Latest
import Blkit.Store.Readback

/-!
# State stores on an SQL database

What `stores/sqlite/store.go` and `stores/postgres/store.go` share: three tables, for
the metadata of runs, for value records and for history records, with ids that a table
gives out in ascending order.  A status flip is one `UPDATE`, and records are read back
`ORDER BY ts, id`.  The two stores differ in how a column holds a timestamp and in the
query behind `CurrentVersion`.

A batch is one transaction; the ids that a failed one has drawn are not modelled, since
only the order of ids is ever looked at.

## What is taken from the database

The tables do what the documentation of SQLite and of PostgreSQL says of the statements the
stores make:

* a transaction takes effect as a whole or, if a statement of it fails, not at all;
* the id of an inserted row is above the ids of the rows before it;
* `INSERT … ON CONFLICT (run_id) DO UPDATE` puts a row in the place of the one with its key;
* `UPDATE … WHERE` changes the rows that meet the condition, and no others;
* `ORDER BY ts, id` lists rows by timestamp, and rows with one timestamp by id.

Which statements the database refuses is a parameter (`Server`), and so is what a column makes
of a timestamp (`TimeColumn`).
-/

namespace Blkit

open List Function ValueRecord

/-! ## Tables -/

/-- How a column holds timestamps, as integers. -/
structure TimeColumn where
  bind : GoTime → Int
  scan : Int → GoTime

/-- A timestamp that is written and read back. -/
def TimeColumn.kept (col : TimeColumn) (t : GoTime) : GoTime := col.scan (col.bind t)

/-- A row of the table of runs. -/
structure RunRow where
  processID : String
  processVersion : String
  status : String
  publishedAt : Option Int
  startedAt : Option Int
  completedAt : Option Int
  evaluationCount : Int
deriving DecidableEq, Repr

/-- A row of the table of value records. -/
structure ValueRow where
  id : Nat
  runID : String
  taskID : String
  executionID : String
  field : String
  value : List UInt8
  status : String
  ts : Int
deriving DecidableEq, Repr

/-- A row of the table of history records. -/
structure HistoryRow where
  id : Nat
  runID : String
  kind : String
  nodeID : Option String
  executionID : String
  payload : List UInt8
  ts : Int
deriving DecidableEq, Repr

/-- The tables, and the last id each table of records has given out. -/
structure SqlStore where
  runs : String → Option RunRow
  values : List ValueRow
  history : List HistoryRow
  valueID : Nat
  historyID : Nat

/-- What the database says to metadata, and to the statement of an event for a run. -/
structure Server where
  metadata : RunMetadata → Except String Unit
  event : String → Event → Except String Unit

/-- A database that accepts everything. -/
def Server.all : Server := ⟨fun _ => .ok (), fun _ _ => .ok ()⟩

section Rows

variable (col : TimeColumn)

/-- The columns of metadata. -/
def RunMetadata.toRow (m : RunMetadata) : RunRow :=
  ⟨m.processID, m.processVersion, m.status, m.publishedAt.map col.bind, m.startedAt.map col.bind,
    m.completedAt.map col.bind, m.evaluationCount⟩

/-- The metadata a row is scanned into. -/
def RunRow.read (row : RunRow) (runID : String) : RunMetadata :=
  ⟨runID, row.processID, row.processVersion, row.status, row.publishedAt.map col.scan,
    row.startedAt.map col.scan, row.completedAt.map col.scan, row.evaluationCount⟩

/-- The record a row is scanned into. -/
def ValueRow.read (row : ValueRow) : Except String ValueRecord :=
  match parseValueStatus row.status with
  | .error msg => .error msg
  | .ok status =>
    .ok ⟨⟨row.taskID, row.executionID, row.field, row.value, col.scan row.ts⟩, status, row.id⟩

/-- The record a row is scanned into. -/
def HistoryRow.read (row : HistoryRow) : HistoryRecord :=
  ⟨⟨row.kind, row.nodeID, row.executionID, row.payload, col.scan row.ts⟩, row.id⟩

end Rows

/-- `UPDATE … SET status = … WHERE run_id = … AND task_id = … AND status = 'pending'`. -/
def StatusFlip.updateRow (f : StatusFlip) (runID : String) (row : ValueRow) : ValueRow :=
  if row.runID = runID ∧ row.taskID = f.taskID ∧ row.status = "pending" then
    { row with status := f.newStatus.string }
  else row

/-- One round of the loop of `CurrentVersion`. -/
def FieldValues.putRow (vs : FieldValues) (row : ValueRow) : FieldValues :=
  let task := (vs row.taskID).getD fun _ => none
  Function.update vs row.taskID (some (Function.update task row.field (some row.value)))

/-! ## Calls -/

namespace SqlStore

/-- Empty tables. -/
def new : SqlStore := ⟨fun _ => none, [], [], 0, 0⟩

section Calls

variable (col : TimeColumn) (server : Server) (s : SqlStore)

/-- `Save`. -/
def save (m : RunMetadata) : Except String Unit × SqlStore :=
  if m.runID = "" then (.error "save: empty RunID", s)
  else
    match server.metadata m with
    | .error e => (.error e, s)
    | .ok () => (.ok (), { s with runs := Function.update s.runs m.runID (some (m.toRow col)) })

/-- The statement of an event. -/
def applyEvent (runID : String) : Event → SqlStore
  | .value w =>
    { s with
      values := s.values ++ [⟨s.valueID + 1, runID, w.taskID, w.executionID, w.field, w.value,
        "pending", col.bind w.timestamp⟩]
      valueID := s.valueID + 1 }
  | .flip f => { s with values := s.values.map (f.updateRow runID) }
  | .history h =>
    { s with
      history := s.history ++ [⟨s.historyID + 1, runID, h.kind, h.nodeID, h.executionID, h.stored,
        col.bind h.timestamp⟩]
      historyID := s.historyID + 1 }

/-- One round of the loop of `WriteBatch`. -/
def applyOp (op : WriteOp) : Except String SqlStore :=
  match op.event? with
  | none => .ok s
  | some e => (server.event op.runID e).map fun _ => s.applyEvent col op.runID e

/-- `WriteBatch`: a transaction that fails is rolled back. -/
def writeBatch (ops : List WriteOp) : Except String Unit × SqlStore :=
  match ops.forM validateWriteOp with
  | .error e => (.error e, s)
  | .ok () =>
    match ops.foldlM (applyOp col server) s with
    | .error e => (.error e, s)
    | .ok s' => (.ok (), s')

/-- `runMeta`: the metadata, and whether the run exists. -/
def runMeta (runID : String) : RunMetadata × Bool :=
  match s.runs runID with
  | some row => (row.read col runID, true)
  | none =>
    (.blank runID, 0 < (s.values.countP fun row => row.runID = runID) +
      s.history.countP fun row => row.runID = runID)

/-- The rows the query behind `CurrentVersion` is about. -/
def committed (runID : String) : List ValueRow :=
  s.values.filter fun row => row.runID = runID ∧ row.status = "committed"

/-- `CurrentVersion`, with the query it makes. -/
def currentVersion (query : List ValueRow → List ValueRow) (runID : String) :
    Option CurrentVersion :=
  let (metadata, found) := s.runMeta col runID
  if !found then none
  else some ⟨metadata, (query (s.committed runID)).foldl FieldValues.putRow fun _ => none⟩

/-- `FullHistory`. -/
def fullHistory (runID : String) : Except String (Option FullHistory) :=
  let (metadata, found) := s.runMeta col runID
  if !found then .ok none
  else do
    let values ← (stableSort (placeBy (fun row => row.ts) fun row => row.id)
      (s.values.filter fun row => row.runID = runID)).mapM (ValueRow.read col)
    return some ⟨metadata, values, (stableSort (placeBy (fun row => row.ts) fun row => row.id)
        (s.history.filter fun row => row.runID = runID)).map (HistoryRow.read col)⟩

/-- The store after a call, whether or not the call returned an error. -/
def call : StoreCall → SqlStore
  | .save m => (s.save col server m).2
  | .writeBatch ops => (s.writeBatch col server ops).2

/-- The store after a sequence of calls. -/
def exec (calls : List StoreCall) : SqlStore := calls.foldl (call col server) s

end Calls

end SqlStore

/-- The database accepts the statements of a call. -/
def StoreCall.Accepted (server : Server) : StoreCall → Prop
  | .save m => server.metadata m = .ok ()
  | .writeBatch ops => ∀ op ∈ ops, ∀ e, op.event? = some e → server.event op.runID e = .ok ()

/-! ## What the tables hold -/

section Holds

variable (col : TimeColumn)

/-- The row of a value record. -/
def ValueRecord.toRow (runID : String) (r : ValueRecord) : ValueRow :=
  ⟨r.seq, runID, r.taskID, r.executionID, r.field, r.value, r.status.string, col.bind r.timestamp⟩

/-- The row of a history record. -/
def HistoryRecord.toRow (runID : String) (r : HistoryRecord) : HistoryRow :=
  ⟨r.seq, runID, r.kind, r.nodeID, r.executionID, r.stored, col.bind r.timestamp⟩

/-- The rows of a run are those of the records `vs` and `hs`, which make up its log. -/
structure SqlStore.Holds (s : SqlStore) (runID : String) (l : RunLog) (vs : List ValueRecord)
    (hs : List HistoryRecord) : Prop where
  metadata : s.runs runID = l.metadata.map (RunMetadata.toRow col)
  owner : ∀ m, l.metadata = some m → m.runID = runID
  values : s.values.filter (fun row => row.runID = runID) = vs.map (toRow col runID)
  history : s.history.filter (fun row => row.runID = runID) = hs.map (HistoryRecord.toRow col runID)
  values_bare : vs.map bare = l.values
  history_bare : hs.map (fun r => r.toHistoryEntry) = l.history
  values_order : vs.Pairwise fun a b => a.seq < b.seq
  history_order : hs.Pairwise fun a b => a.seq < b.seq
  values_le : ∀ r ∈ vs, r.seq ≤ s.valueID
  history_le : ∀ r ∈ hs, r.seq ≤ s.historyID
  named : ∀ r ∈ vs, r.status.Named

end Holds

namespace SqlStore

variable {col : TimeColumn} {server : Server} {s : SqlStore} {runID : String} {l : RunLog}
  {vs : List ValueRecord} {hs : List HistoryRecord}

lemma holds_new (runID : String) : new.Holds col runID .empty [] [] :=
  ⟨rfl, nofun, rfl, rfl, rfl, rfl, .nil, .nil, nofun, nofun, nofun⟩

lemma filter_updateRow (f : StatusFlip) (runID runID' : String) (rows : List ValueRow) :
    (rows.map (f.updateRow runID')).filter (fun row => row.runID = runID) =
      (rows.filter fun row => row.runID = runID).map (f.updateRow runID') := by
  rw [filter_map]
  congr 2
  funext row
  rw [comp_apply, StatusFlip.updateRow]
  split <;> rfl

lemma updateRow_toRow {f : StatusFlip} {r : ValueRecord} (hr : r.status.Named) :
    f.updateRow runID (r.toRow col runID) = (f.settle r).toRow col runID := by
  have hpending : r.status.string = "pending" ↔ r.status = .pending := hr.string_eq .pending rfl
  rw [StatusFlip.updateRow, StatusFlip.settle]
  by_cases h : r.taskID = f.taskID ∧ r.status = .pending
  · rw [if_pos h]
    exact if_pos ⟨rfl, h.1, hpending.2 h.2⟩
  · rw [if_neg h]
    exact if_neg fun hrow => h ⟨hrow.2.1, hpending.1 hrow.2.2⟩

lemma Holds.save (h : s.Holds col runID l vs hs) (m : RunMetadata) (hm : m.runID = runID) :
    Holds col { s with runs := update s.runs m.runID (some (m.toRow col)) } runID
      (l.step (.save m)) vs hs := by
  refine { h with metadata := ?_, owner := ?_ }
  · show update s.runs m.runID _ runID = _
    rw [hm, update_self]
    rfl
  · rintro m' ⟨⟩
    exact hm

/-- What a statement does to the rows of its own run. -/
lemma Holds.apply (h : s.Holds col runID l vs hs) {e : Event} (he : e.Settling) :
    ∃ vs' hs', (s.applyEvent col runID e).Holds col runID (l.apply e) vs' hs' := by
  cases e with
  | value w =>
    refine ⟨vs ++ [⟨w, .pending, s.valueID + 1⟩], hs, { h with
      values := ?_, values_bare := ?_, values_order := ?_, values_le := ?_, named := ?_ }⟩
    · rw [applyEvent, filter_append, h.values, map_append]
      simp only [filter_cons, filter_nil, decide_true, if_true]
      rfl
    · rw [map_append, h.values_bare]
      rfl
    · exact pairwise_concat.2 ⟨h.values_order, fun a ha => Nat.lt_succ_of_le (h.values_le a ha)⟩
    · exact forall_mem_concat.2 ⟨fun r hr => Nat.le_succ_of_le (h.values_le r hr), le_rfl⟩
    · rw [forall_mem_concat]
      exact ⟨h.named, rfl⟩
  | flip f =>
    refine ⟨vs.map f.settle, hs, { h with
      values := ?_, values_bare := ?_, values_order := ?_, values_le := ?_, named := ?_ }⟩
    · rw [applyEvent, filter_updateRow, h.values, map_map, map_map]
      exact map_congr_left fun r hr => updateRow_toRow (h.named r hr)
    · rw [RunLog.apply, ← h.values_bare, map_map, map_map]
      exact map_congr_left fun r _ => f.bare_settle r
    · rw [pairwise_map]
      simpa using h.values_order
    · rw [forall_mem_map]
      exact fun r hr => (f.seq_settle r).trans_le (h.values_le r hr)
    · rw [forall_mem_map]
      exact fun r hr => he.named_settle (h.named r hr)
  | history e =>
    refine ⟨vs, hs ++ [⟨e, s.historyID + 1⟩], { h with
      history := ?_, history_bare := ?_, history_order := ?_, history_le := ?_ }⟩
    · rw [applyEvent, filter_append, h.history, map_append]
      simp only [filter_cons, filter_nil, decide_true, if_true]
      rfl
    · rw [map_append, h.history_bare]
      rfl
    · exact pairwise_concat.2 ⟨h.history_order, fun a ha => Nat.lt_succ_of_le (h.history_le a ha)⟩
    · exact forall_mem_concat.2 ⟨fun r hr => Nat.le_succ_of_le (h.history_le r hr), le_rfl⟩

/-- The rows of the other runs are left alone. -/
lemma Holds.apply_other (h : s.Holds col runID l vs hs) {runID' : String} (hne : runID' ≠ runID)
    (e : Event) : (s.applyEvent col runID' e).Holds col runID l vs hs := by
  cases e with
  | value w =>
    refine { h with values := ?_, values_le := fun r hr => Nat.le_succ_of_le (h.values_le r hr) }
    rw [applyEvent, filter_append, h.values]
    simp [hne]
  | flip f =>
    refine { h with values := ?_ }
    rw [applyEvent, filter_updateRow, h.values, map_map]
    refine map_congr_left fun r _ => if_neg fun hrow => hne hrow.1.symm
  | history e =>
    refine { h with history := ?_, history_le := fun r hr => Nat.le_succ_of_le (h.history_le r hr) }
    rw [applyEvent, filter_append, h.history]
    simp [hne]

/-! ## Runs -/

/-- The tables hold the logs `L`. -/
def Tracks (col : TimeColumn) (s : SqlStore) (L : String → RunLog) : Prop :=
  ∀ runID, ∃ vs hs, s.Holds col runID (L runID) vs hs

variable {L : String → RunLog}

/-- An event arrives for one run. -/
lemma Tracks.applyEvent (h : Tracks col s L) (runID : String) {e : Event} (he : e.Settling) :
    Tracks col (s.applyEvent col runID e) fun r => if runID = r then (L r).apply e else L r := by
  intro r
  obtain ⟨vs, hs, hold⟩ := h r
  by_cases hr : runID = r
  · subst hr
    simpa using hold.apply he
  · exact ⟨vs, hs, by simpa [hr] using hold.apply_other hr e⟩

/-- A batch does to each run what its operations on the run say. -/
lemma Tracks.applyOps (h : Tracks col s L) {ops : List WriteOp} (hops : ∀ op ∈ ops, op.Valid)
    (hacc : ∀ op ∈ ops, ∀ e, op.event? = some e → server.event op.runID e = .ok ()) :
    ∃ s', ops.foldlM (applyOp col server) s = .ok s' ∧ Tracks col s' fun r =>
        ((ops.filter fun op => op.runID = r).filterMap WriteOp.event?).foldl
          RunLog.apply (L r) := by
  induction ops generalizing s L with
  | nil => exact ⟨s, rfl, h⟩
  | cons op ops ih =>
    rw [forall_mem_cons] at hops hacc
    obtain ⟨e, he, hset⟩ := hops.1.event
    have hstep : s.applyOp col server op = .ok (s.applyEvent col op.runID e) := by
      rw [applyOp, he]
      simp only [hacc.1 e he]
      rfl
    obtain ⟨s', hrest, htracks⟩ := ih (h.applyEvent op.runID hset) hops.2 hacc.2
    refine ⟨s', ?_, fun r => ?_⟩
    · rw [foldlM_cons, hstep]
      exact hrest
    · have hr := htracks r
      by_cases hr' : op.runID = r
      · simpa [hr', he] using hr
      · simpa [hr'] using hr

/-- An accepted call does to each run what its operations on the run say, and a refused
one does nothing. -/
lemma Tracks.call (h : Tracks col s L) {c : StoreCall} (hc : c.Accepted server) :
    Tracks col (s.call col server c) fun r => (c.opsOn r).foldl RunLog.step (L r) := by
  cases c with
  | save m =>
    have hmeta : server.metadata m = .ok () := hc
    intro r
    obtain ⟨vs, hs, hold⟩ := h r
    beta_reduce
    rw [SqlStore.call, SqlStore.save, StoreCall.opsOn]
    by_cases hm : m.runID = ""
    · rw [if_pos hm, if_neg fun h => h.2 hm]
      exact ⟨vs, hs, hold⟩
    · rw [if_neg hm, hmeta]
      by_cases hr : m.runID = r
      · rw [if_pos ⟨hr, hm⟩]
        exact ⟨vs, hs, hold.save m hr⟩
      · rw [if_neg fun h => hr h.1]
        refine ⟨vs, hs, { hold with metadata := ?_ }⟩
        show update s.runs m.runID _ r = _
        rw [update_of_ne (Ne.symm hr)]
        exact hold.metadata
  | writeBatch ops =>
    rw [SqlStore.call, writeBatch]
    by_cases hops : ∀ op ∈ ops, op.Valid
    · obtain ⟨s', hrun, htracks⟩ := h.applyOps hops hc
      simp only [forM_validateWriteOp.2 hops, hrun, StoreCall.opsOn, if_pos hops, foldl_map]
      exact htracks
    · cases hv : ops.forM validateWriteOp with
      | ok u => exact absurd (forM_validateWriteOp.1 hv) hops
      | error e =>
        simp only [StoreCall.opsOn, if_neg hops]
        exact h

lemma tracks_exec {calls : List StoreCall} (hcalls : ∀ c ∈ calls, c.Accepted server) :
    Tracks col (new.exec col server calls) fun r => runLog r calls := by
  induction calls using reverseRecOn with
  | nil => exact fun r => ⟨[], [], holds_new r⟩
  | append_singleton calls c ih =>
    rw [forall_mem_concat] at hcalls
    have hstep := (ih hcalls.1).call hcalls.2
    simp only [runLog_append_singleton]
    rwa [exec, foldl_append]

/-! ## Reading -/

/-- Metadata that is written and read back. -/
def keptMetadata (col : TimeColumn) (m : RunMetadata) : RunMetadata :=
  { m with
    publishedAt := m.publishedAt.map col.kept
    startedAt := m.startedAt.map col.kept
    completedAt := m.completedAt.map col.kept }

/-- A value record that is written and read back. -/
def keptValue (col : TimeColumn) (r : ValueRecord) : ValueRecord :=
  { r with timestamp := col.kept r.timestamp }

/-- A history record that is written and read back. -/
def keptHistory (col : TimeColumn) (r : HistoryRecord) : HistoryRecord :=
  { r with payload := r.stored, timestamp := col.kept r.timestamp }

lemma countP_pos {α β : Type} {p : α → Bool} {f : β → α} {l : List α} {m : List β}
    (h : l.filter p = m.map f) : 0 < l.countP p ↔ m ≠ [] := by
  rw [countP_eq_length_filter, h, length_map, length_pos_iff]

/-- The run exists when something is kept of it. -/
lemma Holds.runMeta (h : s.Holds col runID l vs hs) :
    s.runMeta col runID = ((l.metadata.map (keptMetadata col)).getD (.blank runID), l.stored) := by
  rw [SqlStore.runMeta, h.metadata, RunLog.stored, ← h.values_bare, ← h.history_bare]
  cases hm : l.metadata with
  | some m =>
    rw [← h.owner m hm]
    refine Prod.ext ?_ rfl
    show RunRow.read col (m.toRow col) m.runID = keptMetadata col m
    simp only [RunRow.read, RunMetadata.toRow, Option.map_map]
    rfl
  | none =>
    refine Prod.ext rfl ?_
    show decide (0 < _ + _) = (!(vs.map _).isEmpty || !(hs.map _).isEmpty)
    rw [Bool.eq_iff_iff, decide_eq_true_eq, Nat.add_pos_iff_pos_or_pos, countP_pos h.values,
      countP_pos h.history]
    simp

lemma Holds.read_values (h : s.Holds col runID l vs hs) :
    (stableSort (placeBy (fun row => row.ts) fun row => row.id)
      (s.values.filter fun row => row.runID = runID)).mapM (ValueRow.read col) =
        .ok ((stableSort (fun r => col.bind r.timestamp) vs).map (keptValue col)) := by
  have horder : (vs.map (toRow col runID)).Pairwise fun a b => a.id < b.id := by
    rw [pairwise_map]
    exact h.values_order
  rw [h.values, stableSort_placeBy horder,
    ← map_stableSort (fun row : ValueRow => row.ts) (toRow col runID)]
  refine Fallible.mapM_map_ok fun r hr => ?_
  have hstatus : parseValueStatus (r.toRow col runID).status = .ok r.status :=
    h.named r (mem_stableSort.1 hr)
  rw [ValueRow.read, hstatus]
  rfl

lemma Holds.read_history (h : s.Holds col runID l vs hs) :
    (stableSort (placeBy (fun row => row.ts) fun row => row.id)
      (s.history.filter fun row => row.runID = runID)).map (HistoryRow.read col) =
        (stableSort (fun r => col.bind r.timestamp) hs).map (keptHistory col) := by
  have horder : (hs.map (HistoryRecord.toRow col runID)).Pairwise fun a b => a.id < b.id := by
    rw [pairwise_map]
    exact h.history_order
  rw [h.history, stableSort_placeBy horder,
    ← map_stableSort (fun row : HistoryRow => row.ts) (HistoryRecord.toRow col runID), map_map]
  rfl

/-- A run of which something is kept is served with its records in the order of the
column. -/
lemma Holds.fullHistory (h : s.Holds col runID l vs hs) :
    s.fullHistory col runID = .ok (if l.stored then some ⟨(l.metadata.map (keptMetadata col)).getD
        (.blank runID), (stableSort (fun r => col.bind r.timestamp) vs).map (keptValue col),
        (stableSort (fun r => col.bind r.timestamp) hs).map (keptHistory col)⟩
      else none) := by
  rw [SqlStore.fullHistory, h.runMeta]
  cases l.stored with
  | false => rfl
  | true =>
    simp only [h.read_values, h.read_history]
    rfl

lemma bare_sorted (h : vs.map bare = l.values) :
    ((stableSort (fun r => col.bind r.timestamp) vs).map (keptValue col)).map bare =
      (l.replayValues col.bind).map fun q =>
        ({ q.1 with timestamp := col.kept q.1.timestamp }, q.2) := by
  rw [RunLog.replayValues, ← h,
    ← map_stableSort (fun q : ValueWrite × ValueStatus => col.bind q.1.timestamp) bare,
    map_map, map_map]
  rfl

lemma entry_sorted (h : hs.map (fun r => r.toHistoryEntry) = l.history) :
    ((stableSort (fun r => col.bind r.timestamp) hs).map (keptHistory col)).map
        (fun r => r.toHistoryEntry) =
      (l.replayHistory col.bind).map fun e =>
        { e with payload := e.stored, timestamp := col.kept e.timestamp } := by
  rw [RunLog.replayHistory, ← h, ← map_stableSort (fun e : HistoryEntry => col.bind e.timestamp)
      (fun r : HistoryRecord => r.toHistoryEntry), map_map, map_map]
  rfl

/-! ## The current version -/

/-- Task and field of a row. -/
def place (row : ValueRow) : String × String := (row.taskID, row.field)

/-- The query reports the latest row of each task and field, in any order. -/
def Reports (query : List ValueRow → List ValueRow) : Prop :=
  ∀ rows : List ValueRow, (rows.Pairwise fun a b => a.id < b.id) → ((query rows).map place).Nodup ∧
      ∀ row, row ∈ query rows ↔ IsTop place (placeBy (fun row => row.ts) fun row => row.id) rows row

end SqlStore

/-- A task is listed only with a field that holds a value. -/
def FieldValues.Tight (vs : FieldValues) : Prop :=
  ∀ task fields, vs task = some fields → ∃ field v, fields field = some v

lemma FieldValues.ext_of_lookup {vs vs' : FieldValues} (h : vs.Tight) (h' : vs'.Tight)
    (hlookup : ∀ task field, vs.lookup task field = vs'.lookup task field) : vs = vs' := by
  funext task
  cases hv : vs task with
  | none =>
    cases hv' : vs' task with
    | none => rfl
    | some fields =>
      obtain ⟨field, v, hfield⟩ := h' task fields hv'
      have := hlookup task field
      simp [lookup, hv, hv', hfield] at this
  | some fields =>
    cases hv' : vs' task with
    | none =>
      obtain ⟨field, v, hfield⟩ := h task fields hv
      have := hlookup task field
      simp [lookup, hv, hv', hfield] at this
    | some fields' =>
      congr 1
      funext field
      have := hlookup task field
      simpa [lookup, hv, hv'] using this

lemma FieldValues.Tight.put {vs : FieldValues} (h : vs.Tight) (r : ValueRecord) :
    (vs.put r).Tight := by
  rw [FieldValues.put]
  split
  · exact h
  · intro task fields hfields
    by_cases ht : task = r.taskID
    · subst ht
      rw [update_self, Option.some.injEq] at hfields
      exact ⟨r.field, r.value, by rw [← hfields, update_self]⟩
    · rw [update_of_ne ht] at hfields
      exact h task fields hfields

lemma FieldValues.tight_foldl_put (recs : List ValueRecord) :
    FieldValues.Tight (recs.foldl FieldValues.put fun _ => none) := by
  induction recs using reverseRecOn with
  | nil => exact nofun
  | append_singleton recs r ih =>
    rw [foldl_append]
    exact ih.put r

namespace SqlStore

variable {col : TimeColumn} {s : SqlStore} {runID : String} {l : RunLog} {vs : List ValueRecord}
  {hs : List HistoryRecord} {query : List ValueRow → List ValueRow}

/-- The committed record of a row. -/
def asRecord (row : ValueRow) : ValueRecord :=
  ⟨⟨row.taskID, row.executionID, row.field, row.value, ⟨0, 0⟩⟩, .committed, row.id⟩

lemma Holds.committed (h : s.Holds col runID l vs hs) :
    s.committed runID = (vs.filter fun r => r.status = .committed).map (toRow col runID) := by
  have hsplit : s.committed runID =
      (s.values.filter fun row => row.runID = runID).filter fun row =>
        row.status = "committed" := by
    rw [filter_filter]
    refine filter_congr fun row _ => ?_
    rw [Bool.decide_and, Bool.and_comm]
  rw [hsplit, h.values, filter_map]
  congr 1
  refine filter_congr fun r hr => ?_
  exact decide_eq_decide.2 ((h.named r hr).string_eq .committed rfl)

/-- The loop over the reported rows ends with the values a replay of the log in the
order of the column ends with. -/
lemma Holds.current (h : s.Holds col runID l vs hs) (hquery : Reports query) :
    ((query (s.committed runID)).foldl FieldValues.putRow fun _ => none) = l.current col.bind := by
  have hrows : (s.committed runID).Pairwise fun a b => a.id < b.id := by
    rw [h.committed, pairwise_map]
    exact h.values_order.filter _
  obtain ⟨hnodup, hmem⟩ := hquery _ hrows
  have hput : ((query (s.committed runID)).foldl FieldValues.putRow fun _ => none) =
      ((query (s.committed runID)).map asRecord).foldl FieldValues.put fun _ => none := by
    rw [foldl_map]
    rfl
  have hcurrent : l.current col.bind =
      (stableSort (fun r => col.bind r.timestamp) vs).foldl FieldValues.put fun _ => none := by
    rw [RunLog.current, RunLog.replayValues, ← h.values_bare,
      ← map_stableSort (fun q : ValueWrite × ValueStatus => col.bind q.1.timestamp) bare,
      foldl_map]
    rfl
  rw [hput, hcurrent]
  refine FieldValues.ext_of_lookup (FieldValues.tight_foldl_put _) (FieldValues.tight_foldl_put _)
    fun task field => ?_
  have hinj : ∀ a ∈ s.committed runID, ∀ b ∈ s.committed runID,
      placeBy (fun row => row.ts) (fun row => row.id) a =
        placeBy (fun row => row.ts) (fun row => row.id) b → a = b := fun a ha b hb hab =>
    eq_of_increasing hrows ha hb (congrArg (fun p => (ofLex p).2) hab)
  have hall : ((query (s.committed runID)).map asRecord).filter (fun r => r.status = .committed) =
      (query (s.committed runID)).map asRecord := by
    refine filter_eq_self.2 fun r hr => ?_
    obtain ⟨row, -, rfl⟩ := mem_map.1 hr
    rfl
  rw [lookup_foldl_put, lookup_foldl_put, hall, lastAt_map, Option.map_map,
    filter_stableSort h.values_order]
  have htop := lastAt_tops hinj hnodup hmem (task, field)
  rw [stableSort_placeBy hrows, h.committed,
    ← map_stableSort (fun row : ValueRow => row.ts) (toRow col runID), lastAt_map] at htop
  rw [h.committed]
  refine (congrArg (Option.map _) htop).trans ?_
  rw [Option.map_map]
  rfl

/-- `CurrentVersion` of a run of which something is kept. -/
lemma Holds.currentVersion (h : s.Holds col runID l vs hs) (hquery : Reports query) :
    s.currentVersion col query runID =
      if l.stored then some ⟨(l.metadata.map (keptMetadata col)).getD (.blank runID),
        l.current col.bind⟩
      else none := by
  rw [SqlStore.currentVersion, h.runMeta]
  cases l.stored with
  | false => rfl
  | true =>
    rw [← h.current hquery]
    rfl

end SqlStore

end Blkit
