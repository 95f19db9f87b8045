import Blkit.Store.Readback

/-!
# The bbolt state store

`stores/bbolt/store.go`.  Every run has a bucket of its own, with a bucket for value
records, one for history records and one for the flip index, which are iterated in the
order of their keys.  The two record buckets count arrivals separately.  A batch is
one transaction.

For task ids without a NUL byte, payloads that are not empty and timestamps from 1970
on, the store refines the in-memory store: both serve the same records in the same
order, arrival numbers and time zones apart.
-/

namespace Blkit

open List
open KeyStore (agrees_empty get_delete get_set mem_scan)

/-- What is assumed of an event: no NUL byte in the task id, a payload that is not empty,
and a timestamp from 1970 on whose nanoseconds are an `int64`. -/
def Event.Tame : Event → Prop
  | .value w => 0 ∉ bytesOf w.taskID ∧ w.value ≠ [] ∧
      0 ≤ w.timestamp.unixNano ∧ w.timestamp.unixNano < 2 ^ 63
  | .flip f => 0 ∉ bytesOf f.taskID
  | .history h => h.payload ≠ [] ∧ 0 ≤ h.timestamp.unixNano ∧ h.timestamp.unixNano < 2 ^ 63

/-- What is assumed of a call: its payloads can be encoded, and its events are tame. -/
def StoreCall.Tame (enc : Encoder) : StoreCall → Prop :=
  StoreCall.All (fun m => enc.metadata m = .ok ()) fun e => e.Tame ∧ e.encode enc.payload = .ok ()

namespace RunLog

variable {l : RunLog} {Q : RunMetadata → Prop} (h : l.All Q Event.Tame)

include h

/-- In the range of tame timestamps, unsigned order is the order of instants. -/
lemma replayValues_tame : l.replayValues GoTime.unsigned = l.replayValues GoTime.unixNano := by
  refine stableSort_congr fun a ha b hb => ?_
  rw [← Int.ofNat_le, GoTime.unsigned_eq_unixNano (h.values a ha).2.2,
    GoTime.unsigned_eq_unixNano (h.values b hb).2.2]

lemma replayHistory_tame : l.replayHistory GoTime.unsigned = l.replayHistory GoTime.unixNano := by
  refine stableSort_congr fun a ha b hb => ?_
  rw [← Int.ofNat_le, GoTime.unsigned_eq_unixNano (h.history a ha).2,
    GoTime.unsigned_eq_unixNano (h.history b hb).2]

/-- What is kept of tame records is the records, with their timestamps in UTC. -/
lemma serve_tame (runID : String) :
    (l.serve GoTime.unsigned runID).kept = (l.serve GoTime.unixNano runID).utc := by
  rw [serve, replayValues_tame h, replayHistory_tame h, serve, Served.kept, Served.utc]
  congr 1
  · refine map_congr_left fun q hq => ?_
    obtain ⟨hlo, hhi⟩ := (h.values q (mem_stableSort.1 hq)).2.2
    rw [ValueWrite.kept, GoTime.nanos_eq ⟨by omega, hhi⟩]
    rfl
  · refine map_congr_left fun e he => ?_
    obtain ⟨hpayload, hlo, hhi⟩ := h.history e (mem_stableSort.1 he)
    rw [HistoryEntry.kept, HistoryEntry.stored, isEmpty_eq_false_iff.2 hpayload,
      GoTime.nanos_eq ⟨by omega, hhi⟩]
    rfl

end RunLog

/-- The bucket of a run. -/
structure RunBucket where
  metadata : Option RunMetadata
  values : KeyStore (List UInt8) ValueRec
  valueSeq : Nat
  history : KeyStore (List UInt8) HistoryRec
  historySeq : Nat
  pending : KeyStore (List UInt8) (List UInt8)

/-- The bucket `runs`. -/
structure BboltStore where
  runs : String → Option RunBucket

namespace Bbolt

/-! ## Keys -/

/-- `eventKey`. -/
def eventKey (ts : Int) (seq : Nat) : List UInt8 :=
  bigEndian 8 (ts % 2 ^ 64).toNat ++ bigEndian 8 seq

/-- `splitEventKey`. -/
def splitEventKey (k : List UInt8) : Int × Nat :=
  let ts := ofBigEndian (k.take 8)
  (if ts < 2 ^ 63 then ts else ts - 2 ^ 64, ofBigEndian (k.drop 8))

/-- `pendingKey`. -/
def pendingKey (taskID : String) (event : List UInt8) : List UInt8 := bytesOf taskID ++ 0 :: event

/-! ## Operations on a run -/

/-- A bucket that has just been created. -/
def newBucket : RunBucket := ⟨none, .empty, 0, .empty, 0, .empty⟩

/-- `NextSequence`, a `uint64`. -/
def nextSequence (n : Nat) : Nat := (n + 1) % 2 ^ 64

section Apply

variable (enc : Encoder)

/-- `applyValueWrite`. -/
def applyValueWrite (rb : RunBucket) (w : ValueWrite) : Except String RunBucket :=
  let seq := nextSequence rb.valueSeq
  match enc.payload w.value with
  | .error e => .error ("value write: encode: " ++ e)
  | .ok () =>
    let key := eventKey w.timestamp.nanos seq
    .ok { rb with
      valueSeq := seq
      values := rb.values.set key (w.toRec .pending)
      pending := rb.pending.set (pendingKey w.taskID key) key }

/-- `applyHistoryEntry`. -/
def applyHistoryEntry (rb : RunBucket) (h : HistoryEntry) : Except String RunBucket :=
  let seq := nextSequence rb.historySeq
  match enc.payload h.stored with
  | .error e => .error ("history entry: encode: " ++ e)
  | .ok () =>
    .ok { rb with
      historySeq := seq
      history := rb.history.set (eventKey h.timestamp.nanos seq) h.toRec }

/-- The keys a cursor visits from the first one that is not below `p` on, as long as
they begin with `p`. -/
def seekKeys {V : Type} (s : KeyStore (List UInt8) V) (p : List UInt8) : List (List UInt8) :=
  ((s.entries.dropWhile fun e => e.1 < p).takeWhile fun e => p.isPrefixOf e.1).map Prod.fst

/-- The second loop of `applyStatusFlip`. -/
def settleKeys (f : StatusFlip) (rb : RunBucket) : List (List UInt8) → Except String RunBucket
  | [] => .ok rb
  | pk :: pks =>
    match rb.pending.get pk with
    | none => .error ("status flip: dangling pending index for task " ++ f.taskID)
    | some eventK =>
      match rb.values.get eventK with
      | none => .error ("status flip: dangling pending index for task " ++ f.taskID)
      | some rec =>
        settleKeys f { rb with
          values := rb.values.set eventK { rec with status := f.newStatus.string }
          pending := rb.pending.delete pk } pks

/-- `applyStatusFlip`. -/
def applyStatusFlip (rb : RunBucket) (f : StatusFlip) : Except String RunBucket :=
  settleKeys f rb (seekKeys rb.pending (bytesOf f.taskID ++ [0]))

/-- The switch in the loop of `WriteBatch`. -/
def applyEvent (rb : RunBucket) : Event → Except String RunBucket
  | .value w => applyValueWrite enc rb w
  | .flip f => applyStatusFlip rb f
  | .history h => applyHistoryEntry enc rb h

end Apply

end Bbolt

/-! ## Calls -/

namespace BboltStore

open Bbolt

/-- A new store. -/
def new : BboltStore := ⟨fun _ => none⟩

section Calls

variable (enc : Encoder) (s : BboltStore)

/-- The run's bucket, created when it is missing. -/
def bucket (runID : String) : RunBucket := (s.runs runID).getD newBucket

/-- The bucket of a run is written. -/
def put (runID : String) (rb : RunBucket) : BboltStore := ⟨Function.update s.runs runID (some rb)⟩

/-- `Save`. -/
def save (m : RunMetadata) : Except String Unit × BboltStore :=
  if m.runID = "" then (.error "save: empty RunID", s)
  else
    match enc.metadata m with
    | .error e => (.error ("save: encode metadata: " ++ e), s)
    | .ok () => (.ok (), s.put m.runID { s.bucket m.runID with metadata := some m })

/-- One round of the loop of `WriteBatch`. -/
def applyOp (op : WriteOp) : Except String BboltStore :=
  match op.event? with
  | none => .ok (s.put op.runID (s.bucket op.runID))
  | some e => (applyEvent enc (s.bucket op.runID) e).map (s.put op.runID)

/-- `WriteBatch`: a transaction that fails is rolled back. -/
def writeBatch (ops : List WriteOp) : Except String Unit × BboltStore :=
  match ops.forM validateWriteOp with
  | .error e => (.error e, s)
  | .ok () =>
    match ops.foldlM (applyOp enc) s with
    | .error e => (.error e, s)
    | .ok s' => (.ok (), s')

/-- `CurrentVersion`. -/
def currentVersion (runID : String) : Option CurrentVersion :=
  (s.runs runID).map fun rb =>
    ⟨rb.metadata.getD (.blank runID),
      rb.values.entries.foldl (fun vs e => vs.putRec e.2) fun _ => none⟩

/-- `FullHistory`. -/
def fullHistory (runID : String) : Except String (Option FullHistory) :=
  match s.runs runID with
  | none => .ok none
  | some rb => do
    let values ← rb.values.entries.mapM fun e => e.2.read (Bbolt.splitEventKey e.1)
    return some ⟨rb.metadata.getD (.blank runID), values,
      rb.history.entries.map fun e => e.2.read (Bbolt.splitEventKey e.1)⟩

/-- The store after a call, whether or not the call returned an error. -/
def call : StoreCall → BboltStore
  | .save m => (s.save enc m).2
  | .writeBatch ops => (s.writeBatch enc ops).2

/-- The store after a sequence of calls. -/
def exec (calls : List StoreCall) : BboltStore := calls.foldl (call enc) s

end Calls

end BboltStore

/-! ## What a bucket holds -/

namespace Bbolt

/-- The key a value record lies under. -/
def recordKey (r : ValueRecord) : List UInt8 := eventKey r.timestamp.nanos r.seq

/-- The key of the index entry of a value record. -/
def indexKey (r : ValueRecord) : List UInt8 := pendingKey r.taskID (recordKey r)

/-- The key a history record lies under. -/
def entryKey (r : HistoryRecord) : List UInt8 := eventKey r.timestamp.nanos r.seq

/-- The bucket holds these records, listed as they arrived, and nothing else. -/
structure Holds (rb : RunBucket) (vs : List ValueRecord) (hs : List HistoryRecord) : Prop where
  values : rb.values.Agrees fun k x => ∃ r ∈ vs, recordKey r = k ∧ r.toValueWrite.toRec r.status = x
  pending : rb.pending.Agrees fun k x =>
    ∃ r ∈ vs, r.status = .pending ∧ indexKey r = k ∧ recordKey r = x
  history : rb.history.Agrees fun k x => ∃ r ∈ hs, entryKey r = k ∧ r.toHistoryEntry.toRec = x
  values_order : vs.Pairwise fun a b => a.seq < b.seq
  history_order : hs.Pairwise fun a b => a.seq < b.seq
  values_le : ∀ r ∈ vs, r.seq ≤ rb.valueSeq
  history_le : ∀ r ∈ hs, r.seq ≤ rb.historySeq
  named : ∀ r ∈ vs, r.status.Named
  /-- No task id contains the separator of the index. -/
  plain : ∀ r ∈ vs, 0 ∉ bytesOf r.taskID

variable {rb : RunBucket} {vs : List ValueRecord} {hs : List HistoryRecord}

lemma holds_new : Holds newBucket [] [] := by
  refine ⟨?_, ?_, ?_, .nil, .nil, nofun, nofun, nofun, nofun⟩
  all_goals exact agrees_empty.congr fun _ _ => by simp

lemma Holds.seq_lt (h : Holds rb vs hs) (hlt : rb.valueSeq < 2 ^ 64) {r : ValueRecord}
    (hr : r ∈ vs) : r.seq < 2 ^ 64 := (h.values_le r hr).trans_lt hlt

lemma indexKey_inj {r r' : ValueRecord} (hr : 0 ∉ bytesOf r.taskID) (hr' : 0 ∉ bytesOf r'.taskID)
    (hk : indexKey r = indexKey r') : r.taskID = r'.taskID ∧ recordKey r = recordKey r' := by
  obtain ⟨ht, hrest⟩ := prefix_of_separator hr hr' ⟨[], by rw [append_nil]; exact hk⟩
  have hlen : (recordKey r).length = (recordKey r').length :=
    (length_eventSuffix _ _).trans (length_eventSuffix _ _).symm
  exact ⟨bytesOf_injective ht, hrest.eq_of_length hlen⟩

/-- The index entries of a task are those that begin with its id and the separator. -/
lemma prefix_indexKey {taskID : String} {r : ValueRecord} (ht : 0 ∉ bytesOf taskID)
    (hr : 0 ∉ bytesOf r.taskID) : bytesOf taskID ++ [0] <+: indexKey r ↔ r.taskID = taskID := by
  constructor
  · intro h
    exact bytesOf_injective (prefix_of_separator ht hr h).1.symm
  · rintro rfl
    refine ⟨recordKey r, ?_⟩
    simp [indexKey, pendingKey]

/-! ## Arrivals -/

lemma Holds.addValue (h : Holds rb vs hs) (hlt : rb.valueSeq + 1 < 2 ^ 64) {w : ValueWrite}
    (hw : 0 ∉ bytesOf w.taskID) :
    Holds { rb with
      valueSeq := rb.valueSeq + 1
      values := rb.values.set (eventKey w.timestamp.nanos (rb.valueSeq + 1)) (w.toRec .pending)
      pending := rb.pending.set
        (pendingKey w.taskID (eventKey w.timestamp.nanos (rb.valueSeq + 1)))
        (eventKey w.timestamp.nanos (rb.valueSeq + 1)) }
      (vs ++ [⟨w, .pending, rb.valueSeq + 1⟩]) hs := by
  have hnew {r : ValueRecord} (hr : r ∈ vs) :
      recordKey r ≠ eventKey w.timestamp.nanos (rb.valueSeq + 1) := by
    intro hk
    have hle := h.values_le r hr
    have := seq_of_eventSuffix (by omega) hlt hk
    omega
  have hnew' {r : ValueRecord} (hr : r ∈ vs) :
      indexKey r ≠ pendingKey w.taskID (eventKey w.timestamp.nanos (rb.valueSeq + 1)) := by
    intro hk
    exact hnew hr (@indexKey_inj r ⟨w, .pending, rb.valueSeq + 1⟩ (h.plain r hr) hw hk).2
  refine ⟨?_, ?_, h.history, ?_, h.history_order, ?_, h.history_le, ?_, ?_⟩
  · refine h.values.set_new (fun _ hx => ?_) fun k x => ?_
    · obtain ⟨r, hr, hk, -⟩ := hx
      exact hnew hr hk
    simp only [mem_append, mem_singleton, or_and_right, exists_or, exists_eq_left]
    exact or_comm.trans (or_congr_left (and_congr eq_comm eq_comm))
  · refine h.pending.set_new (fun _ hx => ?_) fun k x => ?_
    · obtain ⟨r, hr, -, hk, -⟩ := hx
      exact hnew' hr hk
    simp only [mem_append, mem_singleton, or_and_right, exists_or, exists_eq_left, true_and]
    exact or_comm.trans (or_congr_left (and_congr eq_comm eq_comm))
  · exact pairwise_concat.2 ⟨h.values_order, fun a ha => Nat.lt_succ_of_le (h.values_le a ha)⟩
  · exact forall_mem_concat.2 ⟨fun r hr => (h.values_le r hr).trans (Nat.le_succ _), le_rfl⟩
  · rw [forall_mem_concat]
    exact ⟨h.named, rfl⟩
  · exact forall_mem_concat.2 ⟨h.plain, hw⟩

lemma Holds.addHistory (h : Holds rb vs hs) (hlt : rb.historySeq + 1 < 2 ^ 64) (e : HistoryEntry) :
    Holds { rb with
      historySeq := rb.historySeq + 1
      history := rb.history.set (eventKey e.timestamp.nanos (rb.historySeq + 1)) e.toRec }
      vs (hs ++ [⟨e, rb.historySeq + 1⟩]) := by
  have hnew {r : HistoryRecord} (hr : r ∈ hs) :
      entryKey r ≠ eventKey e.timestamp.nanos (rb.historySeq + 1) := by
    intro hk
    have hle := h.history_le r hr
    have := seq_of_eventSuffix (by omega) hlt hk
    omega
  refine { h with history := ?_, history_order := ?_, history_le := ?_ }
  · refine h.history.set_new (fun _ ⟨r, hr, hk, _⟩ => hnew hr hk) fun k x => ?_
    simp only [mem_append, mem_singleton, or_and_right, exists_or, exists_eq_left]
    exact or_comm.trans (or_congr_left (and_congr eq_comm eq_comm))
  · exact pairwise_concat.2 ⟨h.history_order, fun a ha => Nat.lt_succ_of_le (h.history_le a ha)⟩
  · exact forall_mem_concat.2 ⟨fun r hr => (h.history_le r hr).trans (Nat.le_succ _), le_rfl⟩

/-! ## Flips -/

lemma seekKeys_eq {V : Type} (s : KeyStore (List UInt8) V) (p : List UInt8) :
    seekKeys s p = (s.scan fun k => p <+: k).map Prod.fst := by
  rw [seekKeys, seek_eq_filter s.increasing, KeyStore.scan]
  congr 1
  refine filter_congr fun e _ => ?_
  rw [Bool.eq_iff_iff, isPrefixOf_iff_prefix, decide_eq_true_eq]

/-- The loop of a flip, through what is found under a key before and after it. -/
lemma settleKeys_get (f : StatusFlip) {pks : List (List UInt8)} (hnodup : pks.Nodup)
    (hpks : ∀ pk ∈ pks, ∃ k rec, rb.pending.get pk = some k ∧ rb.values.get k = some rec) :
    ∃ values pending, settleKeys f rb pks = .ok { rb with values, pending } ∧
      (∀ k, pending.get k = if k ∈ pks then none else rb.pending.get k) ∧
      ∀ k, values.get k = if ∃ pk ∈ pks, rb.pending.get pk = some k then
          (rb.values.get k).map fun rec => { rec with status := f.newStatus.string }
        else rb.values.get k := by
  induction pks generalizing rb with
  | nil => exact ⟨rb.values, rb.pending, rfl, by simp, by simp⟩
  | cons pk pks ih =>
    rw [nodup_cons] at hnodup
    rw [forall_mem_cons] at hpks
    obtain ⟨⟨k₀, rec₀, hk₀, hrec₀⟩, hpks⟩ := hpks
    have hne {pk' : List UInt8} (h : pk' ∈ pks) : pk' ≠ pk := by
      rintro rfl
      exact hnodup.1 h
    have hrest : ∀ pk' ∈ pks, ∃ k rec, (rb.pending.delete pk).get pk' = some k ∧
        (rb.values.set k₀ { rec₀ with status := f.newStatus.string }).get k = some rec := by
      intro pk' hpk'
      obtain ⟨k, rec, hk, hrec⟩ := hpks pk' hpk'
      rw [get_delete, if_neg (hne hpk'), hk]
      by_cases hkk : k = k₀
      · exact ⟨k, _, rfl, by rw [get_set, if_pos hkk]⟩
      · exact ⟨k, rec, rfl, by rw [get_set, if_neg hkk, hrec]⟩
    obtain ⟨values, pending, hrun, hpending, hvalues⟩ := @ih { rb with
      values := rb.values.set k₀ { rec₀ with status := f.newStatus.string }
      pending := rb.pending.delete pk } hnodup.2 hrest
    refine ⟨values, pending, ?_, fun k => ?_, fun k => ?_⟩
    · rw [settleKeys, hk₀]
      simp only [hrec₀]
      exact hrun
    · rw [hpending, get_delete]
      simp only [mem_cons]
      by_cases hk : k ∈ pks
      · simp [hk]
      · by_cases hpk : k = pk
        · simp [hpk]
        · simp [hk, hpk]
    · have hlater : (∃ pk' ∈ pks, (rb.pending.delete pk).get pk' = some k) ↔
          ∃ pk' ∈ pks, rb.pending.get pk' = some k := by
        refine exists_congr fun pk' => and_congr_right fun h => ?_
        rw [get_delete, if_neg (hne h)]
      rw [hvalues]
      simp only [hlater, get_set, exists_mem_cons_iff, hk₀, Option.some.injEq]
      by_cases hk : k = k₀
      · subst hk
        simp [hrec₀]
      · simp [hk, Ne.symm hk]

lemma pending_settle {f : StatusFlip} (hst : f.newStatus ≠ .pending) (r : ValueRecord) :
    (f.settle r).status = .pending ↔ r.status = .pending ∧ r.taskID ≠ f.taskID := by
  rw [StatusFlip.settle]
  split
  · rename_i h
    simp [hst, h.1]
  · rename_i h
    constructor
    · intro hp
      exact ⟨hp, fun ht => h ⟨ht, hp⟩⟩
    · exact fun h => h.1

@[simp] lemma recordKey_settle (f : StatusFlip) (r : ValueRecord) :
    recordKey (f.settle r) = recordKey r := by
  rw [StatusFlip.settle]
  split <;> rfl

@[simp] lemma indexKey_settle (f : StatusFlip) (r : ValueRecord) :
    indexKey (f.settle r) = indexKey r := by
  rw [indexKey, f.taskID_settle, recordKey_settle, indexKey]

/-- A flip settles the pending records of its task. -/
lemma Holds.flip (h : Holds rb vs hs) (hlt : rb.valueSeq < 2 ^ 64) {f : StatusFlip}
    (hf : (Event.flip f).Settling) (ht : 0 ∉ bytesOf f.taskID) :
    ∃ rb', applyStatusFlip rb f = .ok rb' ∧ Holds rb' (vs.map f.settle) hs ∧
      rb'.metadata = rb.metadata ∧ rb'.valueSeq = rb.valueSeq ∧ rb'.historySeq = rb.historySeq := by
  -- the index entries that are found
  have hmem (k : List UInt8) : k ∈ seekKeys rb.pending (bytesOf f.taskID ++ [0]) ↔
      ∃ r ∈ vs, r.status = .pending ∧ r.taskID = f.taskID ∧ indexKey r = k := by
    rw [seekKeys_eq, mem_map]
    constructor
    · rintro ⟨⟨k, x⟩, he, rfl⟩
      obtain ⟨hget, hprefix⟩ := mem_scan.1 he
      obtain ⟨r, hr, hp, hk, -⟩ := (h.pending k x).1 hget
      refine ⟨r, hr, hp, ?_, hk⟩
      rw [← hk, prefix_indexKey ht (h.plain r hr)] at hprefix
      exact hprefix
    · rintro ⟨r, hr, hp, htask, rfl⟩
      refine ⟨(indexKey r, recordKey r), mem_scan.2 ⟨?_, ?_⟩, rfl⟩
      · exact (h.pending _ _).2 ⟨r, hr, hp, rfl, rfl⟩
      · exact (prefix_indexKey ht (h.plain r hr)).2 htask
  have hnodup : (seekKeys rb.pending (bytesOf f.taskID ++ [0])).Nodup := by
    rw [seekKeys_eq]
    exact nodup_of_increasing KeyStore.scan_increasing
  obtain ⟨values, pending, hrun, hpending, hvalues⟩ := settleKeys_get f hnodup fun pk hpk => by
    obtain ⟨r, hr, hp, -, rfl⟩ := (hmem pk).1 hpk
    exact ⟨recordKey r, _, (h.pending _ _).2 ⟨r, hr, hp, rfl, rfl⟩,
      (h.values _ _).2 ⟨r, hr, rfl, rfl⟩⟩
  refine ⟨_, hrun, ⟨?_, ?_, h.history, ?_, h.history_order, ?_, h.history_le, ?_, ?_⟩, rfl,
    rfl, rfl⟩
  · intro k x
    -- a record is rewritten when it is pending and of the task
    have hhit {r : ValueRecord} (hr : r ∈ vs) :
        (∃ pk ∈ seekKeys rb.pending (bytesOf f.taskID ++ [0]),
          rb.pending.get pk = some (recordKey r)) ↔ r.taskID = f.taskID ∧ r.status = .pending := by
      constructor
      · rintro ⟨pk, hpk, hget⟩
        obtain ⟨r', hr', hp, htask, rfl⟩ := (hmem pk).1 hpk
        have hget' := (h.pending _ _).2 ⟨r', hr', hp, rfl, rfl⟩
        obtain rfl :=
          eq_of_increasing h.values_order hr hr'
            (seq_of_eventSuffix (h.seq_lt hlt hr) (h.seq_lt hlt hr')
          (Option.some.inj (hget.symm.trans hget')))
        exact ⟨htask, hp⟩
      · rintro ⟨htask, hp⟩
        exact ⟨indexKey r, (hmem _).2 ⟨r, hr, hp, htask, rfl⟩,
          (h.pending _ _).2 ⟨r, hr, hp, rfl, rfl⟩⟩
    have hget {r : ValueRecord} (hr : r ∈ vs) : values.get (recordKey r) =
        some ((f.settle r).toValueWrite.toRec (f.settle r).status) := by
      rw [hvalues, (h.values _ _).2 ⟨r, hr, rfl, rfl⟩, StatusFlip.settle]
      simp only [hhit hr]
      split <;> rfl
    constructor
    · intro hx
      obtain ⟨y, hy⟩ : ∃ y, rb.values.get k = some y := by
        rw [hvalues] at hx
        cases hy : rb.values.get k with
        | none => simp [hy] at hx
        | some y => exact ⟨y, rfl⟩
      obtain ⟨r, hr, rfl, -⟩ := (h.values k y).1 hy
      refine ⟨f.settle r, mem_map_of_mem hr, recordKey_settle f r, ?_⟩
      exact Option.some.inj ((hget hr).symm.trans hx)
    · rintro ⟨r', hr', rfl, rfl⟩
      obtain ⟨r, hr, rfl⟩ := mem_map.1 hr'
      rw [recordKey_settle, hget hr]
  · intro k x
    rw [hpending]
    constructor
    · intro hx
      split at hx
      · cases hx
      · rename_i hk
        obtain ⟨r, hr, hp, rfl, rfl⟩ := (h.pending k x).1 hx
        have htask : r.taskID ≠ f.taskID := fun htask => hk ((hmem _).2 ⟨r, hr, hp, htask, rfl⟩)
        exact ⟨f.settle r, mem_map_of_mem hr, (pending_settle hf.ne_pending r).2 ⟨hp, htask⟩,
          indexKey_settle f r, recordKey_settle f r⟩
    · rintro ⟨r', hr', hp, rfl, rfl⟩
      obtain ⟨r, hr, rfl⟩ := mem_map.1 hr'
      obtain ⟨hp, htask⟩ := (pending_settle hf.ne_pending r).1 hp
      rw [indexKey_settle, recordKey_settle, if_neg]
      · exact (h.pending _ _).2 ⟨r, hr, hp, rfl, rfl⟩
      · rw [hmem]
        rintro ⟨r', hr', -, htask', hk⟩
        exact htask ((indexKey_inj (h.plain r' hr') (h.plain r hr) hk).1.symm.trans htask')
  · rw [pairwise_map]
    simpa using h.values_order
  · rw [forall_mem_map]
    simpa using h.values_le
  · rw [forall_mem_map]
    exact fun r hr => hf.named_settle (h.named r hr)
  · rw [forall_mem_map]
    simpa using h.plain

/-! ## The log of a run -/

/-- The bucket holds the log of a run, and its counters are at most `N`. -/
structure Logs (rb : RunBucket) (l : RunLog) (N : Nat) : Prop where
  metadata : rb.metadata = l.metadata
  records : ∃ vs hs, Holds rb vs hs ∧ vs.map ValueRecord.bare = l.values ∧
    hs.map (fun r => r.toHistoryEntry) = l.history
  valueSeq_le : rb.valueSeq ≤ N
  historySeq_le : rb.historySeq ≤ N

variable {l : RunLog} {N : Nat} {enc : Encoder}

lemma Logs.mono (h : Logs rb l N) {N' : Nat} (hN : N ≤ N') : Logs rb l N' :=
  { h with valueSeq_le := h.valueSeq_le.trans hN, historySeq_le := h.historySeq_le.trans hN }

lemma Logs.save (h : Logs rb l N) (m : RunMetadata) :
    Logs { rb with metadata := some m } (l.step (.save m)) N := by
  obtain ⟨-, ⟨vs, hs, hholds, hvs, hhs⟩, hv, hh⟩ := h
  exact ⟨rfl, ⟨vs, hs, { hholds with }, hvs, hhs⟩, hv, hh⟩

lemma Logs.apply (h : Logs rb l N) {e : Event} (he : e.Settling) (htame : e.Tame)
    (henc : e.encode enc.payload = .ok ()) (hlt : e.next N < 2 ^ 64) :
    ∃ rb', applyEvent enc rb e = .ok rb' ∧ Logs rb' (l.apply e) (e.next N) := by
  obtain ⟨hmeta, ⟨vs, hs, hholds, hvs, hhs⟩, hvalue, hhistory⟩ := h
  cases e with
  | value w =>
    have hroom : rb.valueSeq + 1 < 2 ^ 64 := (Nat.succ_le_succ hvalue).trans_lt hlt
    have henc : enc.payload w.value = .ok () := henc
    have hadd := hholds.addValue hroom htame.1
    refine ⟨_, ?_, ⟨?_, ⟨_, _, hadd, ?_, hhs⟩, ?_, ?_⟩⟩
    · simp only [applyEvent, applyValueWrite, henc, nextSequence, Nat.mod_eq_of_lt hroom]
    · exact hmeta
    · rw [map_append, hvs]
      rfl
    · exact Nat.succ_le_succ hvalue
    · exact Nat.le_succ_of_le hhistory
  | history e =>
    have hroom : rb.historySeq + 1 < 2 ^ 64 := (Nat.succ_le_succ hhistory).trans_lt hlt
    have henc : enc.payload e.stored = .ok () := henc
    have hadd := hholds.addHistory hroom e
    refine ⟨_, ?_, ⟨?_, ⟨_, _, hadd, hvs, ?_⟩, ?_, ?_⟩⟩
    · simp only [applyEvent, applyHistoryEntry, henc, nextSequence, Nat.mod_eq_of_lt hroom]
    · exact hmeta
    · rw [map_append, hhs]
      rfl
    · exact Nat.le_succ_of_le hvalue
    · exact Nat.succ_le_succ hhistory
  | flip f =>
    obtain ⟨rb', hrun, hflip, hmeta', hvalue', hhistory'⟩ :=
      hholds.flip (hvalue.trans_lt hlt) he htame
    refine ⟨rb', hrun, ⟨hmeta'.trans hmeta, ⟨_, _, hflip, ?_, hhs⟩, hvalue' ▸ hvalue,
      hhistory' ▸ hhistory⟩⟩
    rw [map_map, RunLog.apply, ← hvs, map_map]
    exact map_congr_left fun r _ => f.bare_settle r

/-! ## Reading -/

lemma entries_eq_scan {V : Type} (s : KeyStore (List UInt8) V) :
    s.entries = s.scan fun _ => True := by
  simp [KeyStore.scan]

lemma Holds.values_entries (h : Holds rb vs hs) (hlt : rb.valueSeq < 2 ^ 64) :
    rb.values.entries = (stableSort (fun r => r.timestamp.unsigned) vs).map
      fun r => (recordKey r, r.toValueWrite.toRec r.status) := by
  rw [entries_eq_scan]
  refine KeyStore.scan_eq_stableSort (fun r => r.seq) h.values_order ?_ fun k x => ?_
  · intro a ha b hb hab
    exact (eventSuffix_lt_iff (h.seq_lt hlt ha) (h.seq_lt hlt hb)).2 (placeBy_lt.1 hab)
  · rw [h.values k x, and_true]

lemma Holds.history_entries (h : Holds rb vs hs) (hlt : rb.historySeq < 2 ^ 64) :
    rb.history.entries = (stableSort (fun r => r.timestamp.unsigned) hs).map
      fun r => (entryKey r, r.toHistoryEntry.toRec) := by
  have hseq {r : HistoryRecord} (hr : r ∈ hs) : r.seq < 2 ^ 64 := (h.history_le r hr).trans_lt hlt
  rw [entries_eq_scan]
  refine KeyStore.scan_eq_stableSort (fun r => r.seq) h.history_order ?_ fun k x => ?_
  · intro a ha b hb hab
    exact (eventSuffix_lt_iff (hseq ha) (hseq hb)).2 (placeBy_lt.1 hab)
  · rw [h.history k x, and_true]

lemma splitEventKey_eq (t : GoTime) {seq : Nat} (hs : seq < 2 ^ 64) :
    splitEventKey (eventKey t.nanos seq) = (t.nanos, seq) := by
  have h := @splitEventKey_eventKey "" seq 0 hs t
  rw [Blkit.splitEventKey, suffixOf_eventKey] at h
  exact h

lemma Holds.read_values (h : Holds rb vs hs) (hlt : rb.valueSeq < 2 ^ 64) :
    (rb.values.entries.mapM fun e => e.2.read (splitEventKey e.1)) =
      .ok ((stableSort (fun r => r.timestamp.unsigned) vs).map ValueRecord.kept) := by
  rw [h.values_entries hlt]
  refine Fallible.mapM_map_ok fun r hr => ?_
  have hr := mem_stableSort.1 hr
  rw [recordKey, splitEventKey_eq _ (h.seq_lt hlt hr)]
  exact ValueRec.read_toRec (h.named r hr) _ _

lemma Holds.read_history (h : Holds rb vs hs) (hlt : rb.historySeq < 2 ^ 64) :
    (rb.history.entries.map fun e => e.2.read (splitEventKey e.1)) =
      (stableSort (fun r => r.timestamp.unsigned) hs).map HistoryRecord.kept := by
  rw [h.history_entries hlt, map_map]
  refine map_congr_left fun r hr => ?_
  have hr := (h.history_le r (mem_stableSort.1 hr)).trans_lt hlt
  rw [Function.comp_apply, entryKey, splitEventKey_eq _ hr]
  rfl

/-- The bucket serves the log by unsigned time. -/
lemma Logs.served (h : Logs rb l N) (hlt : N < 2 ^ 64) (runID : String) :
    ∃ values, (rb.values.entries.mapM fun e => e.2.read (splitEventKey e.1)) = .ok values ∧
      FullHistory.served ⟨rb.metadata.getD (.blank runID), values,
        rb.history.entries.map fun e => e.2.read (splitEventKey e.1)⟩ =
          (l.serve GoTime.unsigned runID).kept := by
  obtain ⟨hmeta, ⟨vs, hs, hholds, hvs, hhs⟩, hv, hh⟩ := h
  refine ⟨_, hholds.read_values (hv.trans_lt hlt), ?_⟩
  rw [hholds.read_history (hh.trans_lt hlt), hmeta]
  simp only [FullHistory.served, RunLog.serve, Served.kept, RunLog.replayValues,
    RunLog.replayHistory, map_map, ← hvs, ← hhs]
  rw [← map_stableSort (fun q : ValueWrite × ValueStatus => q.1.timestamp.unsigned)
    ValueRecord.bare,
    ← map_stableSort (fun e : HistoryEntry => e.timestamp.unsigned)
      (fun r : HistoryRecord => r.toHistoryEntry), map_map, map_map]
  rfl

lemma Logs.current (h : Logs rb l N) (hlt : N < 2 ^ 64) :
    (rb.values.entries.foldl (fun (vs : FieldValues) e => vs.putRec e.2) fun _ => none) =
      l.current GoTime.unsigned := by
  obtain ⟨-, ⟨vs, hs, hholds, hvs, hhs⟩, hv, hh⟩ := h
  rw [hholds.values_entries (hv.trans_lt hlt), RunLog.current, RunLog.replayValues, ← hvs,
    ← map_stableSort (fun q : ValueWrite × ValueStatus => q.1.timestamp.unsigned) ValueRecord.bare,
    foldl_map, foldl_map]
  refine foldl_ext _ _ _ fun acc r hr => ?_
  exact FieldValues.putRec_toRec (hholds.named r (mem_stableSort.1 hr)) acc _ _

end Bbolt

namespace BboltStore

open Bbolt

variable {enc : Encoder} {s : BboltStore} {L : String → RunLog} {heard : String → Bool} {N : Nat}

/-- The store holds the logs `L`, and has heard of the runs `heard`. -/
def Tracks (s : BboltStore) (heard : String → Bool) (L : String → RunLog) (N : Nat) : Prop :=
  ∀ runID, (s.runs runID).isSome = heard runID ∧ Logs (s.bucket runID) (L runID) N

lemma put_runs (s : BboltStore) (runID runID' : String) (rb : RunBucket) :
    (s.put runID rb).runs runID' = if runID = runID' then some rb else s.runs runID' := by
  rw [put]
  show Function.update s.runs runID (some rb) runID' = _
  rw [Function.update_apply]
  by_cases h : runID = runID'
  · rw [if_pos h, if_pos h.symm]
  · rw [if_neg h, if_neg (Ne.symm h)]

lemma Tracks.put (h : Tracks s heard L N) {runID : String} {rb : RunBucket} {l : RunLog} {N' : Nat}
    (hN : N ≤ N') (hrb : Logs rb l N') :
    Tracks (s.put runID rb) (fun r => heard r || decide (runID = r))
      (fun r => if runID = r then l else L r) N' := by
  intro r
  rw [bucket, put_runs]
  by_cases hr : runID = r
  · simpa [hr] using hrb
  · simpa [hr, bucket] using And.intro (h r).1 ((h r).2.mono hN)

/-- A batch does to each run what its operations on the run say. -/
lemma Tracks.applyOps (h : Tracks s heard L N) {ops : List WriteOp} (hops : ∀ op ∈ ops, op.Valid)
    (htame : ∀ op ∈ ops, ∀ e, op.event? = some e → e.Tame ∧ e.encode enc.payload = .ok ())
    (hlt : N + arrivalsOf ops < 2 ^ 64) :
    ∃ s', ops.foldlM (applyOp enc) s = .ok s' ∧
      Tracks s' (fun r => heard r || (ops.any fun op => op.runID = r))
        (fun r => ((ops.filter fun op => op.runID = r).filterMap WriteOp.event?).foldl RunLog.apply
          (L r)) (N + arrivalsOf ops) := by
  induction ops generalizing s heard L N with
  | nil => exact ⟨s, rfl, fun r => by simpa [arrivalsOf, arrivals] using h r⟩
  | cons op ops ih =>
    rw [forall_mem_cons] at hops htame
    obtain ⟨e, he, hset⟩ := hops.1.event
    rw [arrivalsOf_cons he] at hlt ⊢
    obtain ⟨htame₀, henc⟩ := htame.1 e he
    have hle : N ≤ e.next N := by
      cases e with
      | flip f => exact le_rfl
      | value _ | history _ => exact Nat.le_succ N
    obtain ⟨rb', hrun, hlogs⟩ := (h op.runID).2.apply hset htame₀ henc (by omega)
    have hstep : s.applyOp enc op = .ok (s.put op.runID rb') := by
      rw [applyOp, he]
      simp only [hrun]
      rfl
    obtain ⟨s', hrest, htracks⟩ := ih (h.put hle hlogs) hops.2 htame.2 hlt
    refine ⟨s', ?_, ?_⟩
    · rw [foldlM_cons, hstep]
      exact hrest
    · intro r
      have hr := htracks r
      by_cases hr' : op.runID = r
      · simpa [hr', he] using hr
      · simpa [hr'] using hr

lemma Tracks.call (h : Tracks s heard L N) {c : StoreCall} (hc : c.Tame enc)
    (hfit : N + c.arrivals < 2 ^ 64) :
    Tracks (s.call enc c) (fun r => heard r || !(c.opsOn r).isEmpty)
      (fun r => (c.opsOn r).foldl RunLog.step (L r)) (N + c.arrivals) := by
  cases c with
  | save m =>
    have henc : enc.metadata m = .ok () := hc
    rw [BboltStore.call, BboltStore.save]
    by_cases hm : m.runID = ""
    · simpa [StoreCall.opsOn, StoreCall.arrivals, hm] using h
    · rw [if_neg hm, henc]
      have hput : Tracks (s.put m.runID _) _ _ N := h.put le_rfl ((h m.runID).2.save m)
      intro r
      specialize hput r
      by_cases hr : m.runID = r
      · simpa [StoreCall.opsOn, StoreCall.arrivals, hr, hr ▸ hm] using hput
      · simpa [StoreCall.opsOn, StoreCall.arrivals, hr] using hput
  | writeBatch ops =>
    rw [BboltStore.call, BboltStore.writeBatch]
    by_cases hops : ∀ op ∈ ops, op.Valid
    · obtain ⟨s', hrun, htracks⟩ := h.applyOps hops hc hfit
      simp only [forM_validateWriteOp.2 hops, hrun, StoreCall.opsOn,
        if_pos hops, foldl_map, isEmpty_map,
        ← any_runID hops]
      exact htracks
    · cases hv : ops.forM validateWriteOp with
      | ok u => exact absurd (forM_validateWriteOp.1 hv) hops
      | error e =>
        simp only [StoreCall.opsOn, if_neg hops, isEmpty_nil, Bool.not_true, Bool.or_false]
        exact fun r => ⟨(h r).1, (h r).2.mono (Nat.le_add_right _ _)⟩

/-- What the store holds after any calls, refused ones included. -/
lemma tracks_exec {calls : List StoreCall} (hcalls : ∀ c ∈ calls, c.Tame enc)
    (hfit : arrivalsIn calls < 2 ^ 64) :
    Tracks (new.exec enc calls) (fun r => !(opsOn r calls).isEmpty) (fun r => runLog r calls)
      (arrivalsIn calls) := by
  induction calls using reverseRecOn with
  | nil => exact fun r => ⟨rfl, rfl, ⟨[], [], holds_new, rfl, rfl⟩, Nat.zero_le 0, Nat.zero_le 0⟩
  | append_singleton calls c ih =>
    rw [forall_mem_concat] at hcalls
    rw [arrivalsIn_append_singleton] at hfit ⊢
    have hstep := (ih hcalls.1 (by omega)).call hcalls.2 hfit
    simp only [runLog_append_singleton, heard_append_singleton]
    rwa [exec, foldl_append]

/-- The bbolt store refines the in-memory store. -/
theorem bbolt_refines_inMemory (enc : Encoder) (calls : List StoreCall)
    (hcalls : ∀ c ∈ calls, c.Tame enc) (hfit : arrivalsIn calls < 2 ^ 64) (runID : String) :
    (new.exec enc calls).currentVersion runID =
      (newInMemoryStateStore.exec calls).currentVersion runID ∧
    ∃ o, (new.exec enc calls).fullHistory runID = .ok o ∧ o.map FullHistory.served =
        ((newInMemoryStateStore.exec calls).fullHistory runID).map fun fh => fh.served.utc := by
  obtain ⟨hheard, hlogs⟩ := tracks_exec hcalls hfit runID
  have htame : (runLog runID calls).All _ Event.Tame :=
    (runLog_all runID hcalls).imp fun e he => he.1
  have hserved := inMemory_served calls runID
  have hutc : ((newInMemoryStateStore.exec calls).fullHistory runID).map (fun fh => fh.served.utc) =
      (((newInMemoryStateStore.exec calls).fullHistory runID).map FullHistory.served).map
        Served.utc := (Option.map_map Served.utc FullHistory.served _).symm
  rw [hutc, hserved, inMemory_current, currentVersion, fullHistory]
  rw [bucket] at hlogs
  cases hruns : (new.exec enc calls).runs runID with
  | none =>
    rw [hruns] at hheard
    have hnone : opsOn runID calls = [] := by simpa using hheard
    rw [if_pos hnone, if_pos hnone]
    exact ⟨rfl, none, rfl, rfl⟩
  | some rb =>
    rw [hruns] at hheard hlogs
    have hsome : opsOn runID calls ≠ [] := by simpa using hheard
    have hlogs : Bbolt.Logs rb (runLog runID calls) (arrivalsIn calls) := hlogs
    obtain ⟨values, hvalues, hfull⟩ := Logs.served hlogs hfit runID
    rw [if_neg hsome, if_neg hsome]
    refine ⟨?_, _, by simp only [hvalues]; rfl, ?_⟩
    · rw [Option.map_some, Logs.current hlogs hfit, RunLog.current, RunLog.replayValues_tame htame,
        ← RunLog.current, hlogs.metadata]
    · rw [Option.map_some, Option.map_some, ← RunLog.serve_tame htame]
      exact congrArg some hfull

/-- A write and its commit. -/
theorem bbolt_refines_inMemory_commit :
    (new.exec .all [.writeBatch [taskOp "a" "t", commitOp "a" "t"]]).currentVersion
      "a" = (newInMemoryStateStore.exec
        [.writeBatch [taskOp "a" "t", commitOp "a" "t"]]).currentVersion "a" := by
  refine (bbolt_refines_inMemory .all _ ?_ ?_ "a").1
  swap
  · decide
  rw [forall_mem_singleton]
  refine forall_mem_cons.2 ⟨?_, forall_mem_singleton.2 ?_⟩
  · rintro e ⟨⟩
    exact ⟨⟨by decide, by decide, by decide⟩, rfl⟩
  · rintro e ⟨⟩
    exact ⟨show 0 ∉ bytesOf "t" by decide, rfl⟩

end BboltStore

end Blkit
