import Mathlib.Data.String.Basic
import Blkit.Store.Sql

/-!
# The PostgreSQL state store

`stores/postgres/store.go`.  A `TIMESTAMPTZ` keeps microseconds, and the driver rounds
down to them.  `CurrentVersion` sorts the committed rows by task, field and latest time
and keeps the first of each task and field.

Records that arrive within one microsecond are told apart by their ids only: the store
replays them as they arrived, where the in-memory store goes by the nanoseconds.
-/

namespace Blkit

/-- The microseconds since 1970, rounded down. -/
def GoTime.unixMicro (t : GoTime) : Int := t.unixNano / 1000

lemma GoTime.unixMicro_mono {t t' : GoTime} (h : t.unixNano ≤ t'.unixNano) :
    t.unixMicro ≤ t'.unixMicro := Int.ediv_le_ediv (by decide) h

/-! ## What a replay shows -/

/-- The records of a run in replay order, and which of them arrived first, second and so
on.  Timestamps are left out. -/
structure Replay where
  valueOrder : List ℕ
  values : List (ValueWrite × ValueStatus)
  historyOrder : List ℕ
  history : List HistoryEntry
deriving DecidableEq, Repr

/-- The write without its timestamp. -/
def untimedWrite (q : ValueWrite × ValueStatus) : ValueWrite × ValueStatus :=
  ({ q.1 with timestamp := ⟨0, 0⟩ }, q.2)

/-- The entry without its timestamp; an empty payload is as good as `null`. -/
def untimedEntry (e : HistoryEntry) : HistoryEntry :=
  { e with payload := e.stored, timestamp := ⟨0, 0⟩ }

lemma untimedEntry_stored (e : HistoryEntry) (t : GoTime) :
    untimedEntry { e with payload := e.stored, timestamp := t } = untimedEntry e := by
  have hstored : HistoryEntry.stored { e with payload := e.stored, timestamp := t } = e.stored := by
    refine if_neg fun hempty => ?_
    rw [HistoryEntry.stored] at hempty
    split at hempty
    · exact absurd hempty (show ¬ (bytesOf "null").isEmpty = true by decide)
    · exact absurd hempty ‹_›
  rw [untimedEntry, hstored, untimedEntry]

/-- What a replay of a history shows; there is nothing to see of an unknown run. -/
def replayOf : Option FullHistory → Replay
  | none => ⟨[], [], [], []⟩
  | some fh =>
    ⟨ranks (fun r => r.seq) fh.values, fh.values.map fun r => untimedWrite r.bare,
      ranks (fun r => r.seq) fh.history, fh.history.map fun r => untimedEntry r.toHistoryEntry⟩

/-- What a replay of a log shows, when `time` decides the order. -/
def RunLog.replay {K : Type} [LinearOrder K] (time : GoTime → K) (l : RunLog) : Replay where
  valueOrder := arrivalOrder (fun q => time q.1.timestamp) l.values
  values := (l.replayValues time).map untimedWrite
  historyOrder := arrivalOrder (fun h => time h.timestamp) l.history
  history := (l.replayHistory time).map untimedEntry

/-- No record arrives before one of its kind that is earlier by nanoseconds within the
same microsecond. -/
def RunLog.InStep (l : RunLog) : Prop :=
  (l.values.Pairwise fun a b => a.1.timestamp.unixMicro = b.1.timestamp.unixMicro →
    a.1.timestamp.unixNano ≤ b.1.timestamp.unixNano) ∧
  l.history.Pairwise fun a b => a.timestamp.unixMicro = b.timestamp.unixMicro →
    a.timestamp.unixNano ≤ b.timestamp.unixNano

/-- Microseconds and nanoseconds order two records alike, unless the second is earlier
within a microsecond. -/
lemma micro_iff_nano {t t' : GoTime} : (t.unixMicro ≤ t'.unixMicro ↔ t.unixNano ≤ t'.unixNano) ↔
      (t.unixMicro = t'.unixMicro → t.unixNano ≤ t'.unixNano) := by
  constructor
  · intro h heq
    exact h.1 heq.le
  · intro h
    refine ⟨fun hle => ?_, GoTime.unixMicro_mono⟩
    by_contra hlt
    exact hlt (h (le_antisymm hle (GoTime.unixMicro_mono (not_le.1 hlt).le)))

/-- The order of microseconds is that of nanoseconds exactly when the log is in step. -/
lemma RunLog.replay_eq_iff (l : RunLog) :
    l.replay GoTime.unixMicro = l.replay GoTime.unixNano ↔ l.InStep := by
  have hvalues : arrivalOrder (fun q => q.1.timestamp.unixMicro) l.values =
      arrivalOrder (fun q => q.1.timestamp.unixNano) l.values ↔ _ := arrivalOrder_eq_iff
  have hhistory : arrivalOrder (fun h => h.timestamp.unixMicro) l.history =
      arrivalOrder (fun h => h.timestamp.unixNano) l.history ↔ _ := arrivalOrder_eq_iff
  simp only [micro_iff_nano] at hvalues hhistory
  rw [InStep, ← hvalues, ← hhistory]
  constructor
  · intro h
    exact ⟨congrArg Replay.valueOrder h, congrArg Replay.historyOrder h⟩
  · rintro ⟨h, h'⟩
    rw [replay, replay, h, h', replayValues, replayHistory, stableSort_of_arrivalOrder h,
      stableSort_of_arrivalOrder h']
    rfl

/-! ## The in-memory store -/

lemma RunLog.current_nil {K : Type} [LinearOrder K] (time : GoTime → K) {l : RunLog}
    (h : l.values = []) : l.current time = fun _ => none := by
  rw [current, replayValues, h]
  rfl

lemma held_inMemory (calls : List StoreCall) (runID task field : String) :
    (newInMemoryStateStore.exec calls).held runID task field =
      ((runLog runID calls).current GoTime.unixNano).lookup task field := by
  rw [InMemoryStateStore.held, inMemory_current]
  split
  · rename_i hops
    rw [runLog, hops, RunLog.current_nil _ rfl]
    rfl
  · rfl

lemma replayOf_inMemory (calls : List StoreCall) (runID : String) :
    replayOf ((newInMemoryStateStore.exec calls).fullHistory runID) =
      (runLog runID calls).replay GoTime.unixNano := by
  rw [InMemoryStateStore.fullHistory]
  cases hr : (newInMemoryStateStore.exec calls).runs runID with
  | none =>
    have hheld := (inMemoryHolds_exec runID calls).runLog
    rw [hr] at hheld
    rw [← hheld]
    rfl
  | some r =>
    obtain ⟨⟨hvorder, hvalues⟩, hhorder, hhistory⟩ := inMemory_records calls runID hr
    have hvranks := ranks_stableSort hvorder
      (fun q : ValueWrite × ValueStatus => q.1.timestamp.unixNano) ValueRecord.bare
    have hhranks := ranks_stableSort hhorder (fun h : HistoryEntry => h.timestamp.unixNano)
      fun h => h.toHistoryEntry
    rw [Option.map_some, replayOf, RunLog.replay, ← bare_sortValueRecords calls runID hr,
      ← bare_sortHistoryRecords calls runID hr, List.map_map, List.map_map, ← hvalues, ← hhistory,
      ← hvranks, ← hhranks, sortValueRecords, sortReplay_eq _ hvorder, sortHistoryRecords,
      sortReplay_eq _ hhorder]
    rfl

/-! ## The store -/

namespace PostgresStore

open SqlStore

-- the collation of the database
variable {K : Type} [LinearOrder K] (coll : String → K)

/-- A `TIMESTAMPTZ` column. -/
def column : TimeColumn := ⟨GoTime.unixMicro, fun n => ⟨n * 1000, 0⟩⟩

/-- The store after a sequence of calls. -/
def exec (server : Server) (calls : List StoreCall) : SqlStore := new.exec column server calls

/-- The `DISTINCT ON` query of `CurrentVersion`: `ORDER BY task_id, field, ts DESC, id DESC`. -/
def latestRows (rows : List ValueRow) : List ValueRow :=
  distinctOn place (stableSort (fun row => toLex (coll row.taskID, toLex (coll row.field,
    OrderDual.toDual (placeBy (fun row => row.ts) (fun row => row.id) row)))) rows)

/-- `CurrentVersion`. -/
def currentVersion (s : SqlStore) (runID : String) : Option CurrentVersion :=
  s.currentVersion column (latestRows coll) runID

/-- `FullHistory`. -/
def fullHistory (s : SqlStore) (runID : String) : Except String (Option FullHistory) :=
  s.fullHistory column runID

/-- The value that is reported for a task and a field. -/
def held (s : SqlStore) (runID task field : String) : Option (List UInt8) :=
  (currentVersion coll s runID).bind fun cv => cv.values.lookup task field

lemma reports_latestRows : Reports (latestRows coll) := by
  intro rows hrows
  rw [latestRows]
  refine ⟨nodup_distinctOn _ _, fun row => ?_⟩
  have hsorted := stableSort_increasing (fun row : ValueRow => toLex (coll row.taskID,
    toLex (coll row.field,
      OrderDual.toDual (placeBy (fun row => row.ts) (fun row => row.id) row)))) hrows
  have hlatest : (stableSort _ rows).Pairwise fun a b => place a = place b →
      placeBy (fun row => row.ts) (fun row => row.id) b <
        placeBy (fun row => row.ts) (fun row => row.id) a := hsorted.imp fun {a b} hlt hplace => by
    obtain ⟨htask, hfield⟩ := Prod.mk.inj hplace
    rcases placeBy_lt.1 hlt with hlt | ⟨heq, hid⟩
    · simp only [Prod.Lex.toLex_lt_toLex, htask, hfield, lt_irrefl, true_and, false_or] at hlt
      exact OrderDual.toDual_lt_toDual.1 hlt
    · simp only [EmbeddingLike.apply_eq_iff_eq, Prod.mk.injEq, placeBy] at heq
      exact absurd heq.2.2.2 hid.ne
  rw [mem_distinctOn hlatest]
  simp only [IsTop, mem_stableSort]

/-! ## Agreement -/

section Agreement

variable (server : Server) (calls : List StoreCall) (runID : String)

/-- The store reports the winning values and the replay order of the in-memory store. -/
def Agrees : Prop :=
  (∀ task field, held coll (exec server calls) runID task field =
    (newInMemoryStateStore.exec calls).held runID task field) ∧
  ∃ o, fullHistory (exec server calls) runID = .ok o ∧
    replayOf o = replayOf ((newInMemoryStateStore.exec calls).fullHistory runID)

variable {server calls}

/-- The store replays in the order of microseconds. -/
lemma fullHistory_replay (hcalls : ∀ c ∈ calls, c.Accepted server) :
    ∃ o, fullHistory (exec server calls) runID = .ok o ∧
      replayOf o = (runLog runID calls).replay GoTime.unixMicro := by
  obtain ⟨vs, hs, hold⟩ := @tracks_exec column server calls hcalls runID
  refine ⟨_, hold.fullHistory, ?_⟩
  cases hstored : (runLog runID calls).stored with
  | false =>
    obtain ⟨-, hvalues, hhistory⟩ := RunLog.not_stored hstored
    rw [RunLog.replay, RunLog.replayValues, RunLog.replayHistory, hvalues, hhistory]
    rfl
  | true =>
    have hvranks := ranks_stableSort hold.values_order
      (fun q : ValueWrite × ValueStatus => q.1.timestamp.unixMicro) ValueRecord.bare
    have hhranks := ranks_stableSort hold.history_order
      (fun h : HistoryEntry => h.timestamp.unixMicro) fun h => h.toHistoryEntry
    rw [hold.values_bare] at hvranks
    rw [hold.history_bare] at hhranks
    rw [if_pos rfl, replayOf, RunLog.replay, ranks_map, ranks_map, Replay.mk.injEq]
    refine ⟨hvranks, ?_, hhranks, ?_⟩
    · show List.map (untimedWrite ∘ ValueRecord.bare) _ = _
      rw [← List.map_map, bare_sorted hold.values_bare, List.map_map]
      rfl
    · show List.map (untimedEntry ∘ fun r : HistoryRecord => r.toHistoryEntry) _ = _
      rw [← List.map_map, entry_sorted hold.history_bare, List.map_map]
      exact List.map_congr_left fun e _ => untimedEntry_stored e _

lemma held_eq (hcalls : ∀ c ∈ calls, c.Accepted server) (task field : String) :
    held coll (exec server calls) runID task field =
      ((runLog runID calls).current GoTime.unixMicro).lookup task field := by
  obtain ⟨vs, hs, hold⟩ := @tracks_exec column server calls hcalls runID
  rw [held, currentVersion, exec, hold.currentVersion (reports_latestRows coll)]
  cases hstored : (runLog runID calls).stored with
  | false =>
    rw [RunLog.current_nil GoTime.unixMicro (RunLog.not_stored hstored).2.1]
    rfl
  | true => rfl

/-- The store agrees with the in-memory store on a run exactly when no record of the run
arrives before one that is earlier within the same microsecond. -/
theorem postgres_agrees_iff (hcalls : ∀ c ∈ calls, c.Accepted server) :
    Agrees coll server calls runID ↔ (runLog runID calls).InStep := by
  obtain ⟨o, ho, hreplay⟩ := fullHistory_replay runID hcalls
  rw [← RunLog.replay_eq_iff, Agrees, replayOf_inMemory]
  constructor
  · rintro ⟨-, o', ho', h⟩
    rw [ho, Except.ok.injEq] at ho'
    rw [← hreplay, ho', h]
  · intro h
    refine ⟨fun task field => ?_, o, ho, hreplay.trans h⟩
    have hvalues : (runLog runID calls).replayValues GoTime.unixMicro =
        (runLog runID calls).replayValues GoTime.unixNano :=
      stableSort_of_arrivalOrder (show arrivalOrder _ _ = arrivalOrder _ _ from
        congrArg Replay.valueOrder h)
    rw [held_eq coll runID hcalls, RunLog.current, hvalues, held_inMemory, RunLog.current]

/-- Two writes within one microsecond, the later one first. -/
def swapped : List StoreCall :=
  [.writeBatch [writeAt 2 "1", writeAt 1 "2", commitOp "a" "t"]]

/-- The store holds the write that arrived last, the in-memory store the later one. -/
theorem postgres_within_microsecond :
    held (id : String → String) (exec .all swapped) "a" "t" "f" = some (bytesOf "2") ∧
      (newInMemoryStateStore.exec swapped).held "a" "t" "f" = some (bytesOf "1") := by
  constructor <;> decide +kernel

/-- Two writes within one microsecond, in order. -/
theorem postgres_agrees_in_order : Agrees (id : String → String) .all
    [.writeBatch [writeAt 1 "1", writeAt 2 "2", commitOp "a" "t"]] "a" := by
  refine (postgres_agrees_iff _ "a" ?_).2 ⟨?_, List.Pairwise.nil⟩
  · exact List.forall_mem_singleton.2 fun _ _ _ _ => rfl
  · exact List.pairwise_pair.2 (by decide +kernel)

end Agreement

end PostgresStore

end Blkit
