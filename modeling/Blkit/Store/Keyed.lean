import Blkit.Data.KeyStore
import Blkit.Store.InMemory

/-!
# Stores with one flat key space

The records and keys that `stores/badger/store.go` and `stores/pebble/store.go` share.
A value record lies under `v|run|` followed by its timestamp and arrival number, eight
bytes each, a history record under `h|run|` and the same suffix, and a value record
that is still pending has an index entry `p|run|task|` with that suffix, which holds
the key of the record.

Of the embedded databases it is taken that keys are iterated in the order of their bytes, and
that a batch, or a transaction, takes effect as a whole or not at all (`KeyStore`).
Records are stored as they are: that the encoding of a record can be read back is
taken for granted, and `marshal` says which payloads can be encoded.
-/

namespace Blkit

/-! ## Records -/

/-- `time.Time.UnixNano`, an `int64`. -/
def GoTime.nanos (t : GoTime) : Int := (t.unixNano + 2 ^ 63) % 2 ^ 64 - 2 ^ 63

/-- The nanoseconds as the `uint64` an event key shows. -/
def GoTime.unsigned (t : GoTime) : Nat := (t.nanos % 2 ^ 64).toNat

lemma GoTime.nanos_eq {t : GoTime} (h : -2 ^ 63 ≤ t.unixNano ∧ t.unixNano < 2 ^ 63) :
    t.nanos = t.unixNano := by
  rw [GoTime.nanos]
  omega

lemma GoTime.unsigned_eq_unixNano {t : GoTime} (h : 0 ≤ t.unixNano ∧ t.unixNano < 2 ^ 63) :
    (t.unsigned : Int) = t.unixNano := by
  rw [GoTime.unsigned, GoTime.nanos]
  omega

/-- `time.Unix(0, n).UTC()`. -/
def timeOfNanos (n : Int) : GoTime := ⟨n, 0⟩

/-- `ParseValueStatus`. -/
def parseValueStatus (s : String) : Except String ValueStatus :=
  if s = "pending" then .ok .pending
  else if s = "committed" then .ok .committed
  else if s = "aborted" then .ok .aborted
  else .error ("unknown value status \"" ++ s ++ "\"")

/-- `valueRec`. -/
structure ValueRec where
  taskID : String
  executionID : String
  field : String
  value : List UInt8
  status : String
  ts : Int
deriving DecidableEq, Repr

/-- `historyRec`. -/
structure HistoryRec where
  kind : String
  nodeID : Option String
  executionID : String
  payload : List UInt8
  ts : Int
deriving DecidableEq, Repr

/-- The record that is served, with the timestamp and the arrival number its key shows. -/
def ValueRec.read (rec : ValueRec) (place : Int × Nat) : Except String ValueRecord :=
  match parseValueStatus rec.status with
  | .error msg => .error msg
  | .ok status =>
    .ok ⟨⟨rec.taskID, rec.executionID, rec.field, rec.value, timeOfNanos place.1⟩, status, place.2⟩

/-- The record that is served, with the timestamp and the arrival number its key shows. -/
def HistoryRec.read (rec : HistoryRec) (place : Int × Nat) : HistoryRecord :=
  ⟨⟨rec.kind, rec.nodeID, rec.executionID, rec.payload, timeOfNanos place.1⟩, place.2⟩

/-- The value of a committed record is put in place. -/
def FieldValues.putRec (vs : FieldValues) (rec : ValueRec) : FieldValues :=
  if rec.status ≠ ValueStatus.committed.string then vs
  else
    let task := (vs rec.taskID).getD fun _ => none
    Function.update vs rec.taskID (some (Function.update task rec.field (some rec.value)))

/-- What lies under a key, decoded. -/
inductive Stored where
  | metadata (m : RunMetadata)
  | value (r : ValueRec)
  | history (r : HistoryRec)
  | key (k : List UInt8)
  | number (n : Nat)
deriving DecidableEq, Repr

/-- What the JSON encoder says to a payload and to metadata. -/
structure Encoder where
  payload : List UInt8 → Except String Unit
  metadata : RunMetadata → Except String Unit

/-- An encoder that accepts everything. -/
def Encoder.all : Encoder := ⟨fun _ => .ok (), fun _ => .ok ()⟩

/-- The bytes of an index entry. -/
def Stored.asKey : Stored → List UInt8
  | .key k => k
  | _ => []

/-- A key-value store with byte strings as keys. -/
abbrev Database := KeyStore (List UInt8) Stored

/-- The record of a write. -/
def ValueWrite.toRec (w : ValueWrite) (status : ValueStatus) : ValueRec :=
  ⟨w.taskID, w.executionID, w.field, w.value, status.string, w.timestamp.nanos⟩

/-- The payload of an entry; an empty one is stored as `null`. -/
def HistoryEntry.stored (h : HistoryEntry) : List UInt8 :=
  if h.payload.isEmpty then bytesOf "null" else h.payload

/-- The record of a history entry. -/
def HistoryEntry.toRec (h : HistoryEntry) : HistoryRec :=
  ⟨h.kind, h.nodeID, h.executionID, h.stored, h.timestamp.nanos⟩

/-! ## Keys -/

/-- The byte `|`. -/
def bar : UInt8 := 124

/-- `metaKey`. -/
def metaKey (runID : String) : List UInt8 := 109 :: bar :: bytesOf runID

/-- The sixteen bytes an event key ends in. -/
def eventSuffix (ts : Int) (seq : Nat) : List UInt8 :=
  bigEndian 8 (ts % 2 ^ 64).toNat ++ bigEndian 8 seq

/-- `eventKey`. -/
def eventKey (kind : UInt8) (runID : String) (ts : Int) (seq : Nat) : List UInt8 :=
  kind :: bar :: (bytesOf runID ++ bar :: eventSuffix ts seq)

/-- The last sixteen bytes of a key. -/
def suffixOf (k : List UInt8) : List UInt8 := k.drop (k.length - 16)

/-- `pendingKey`. -/
def pendingKey (runID taskID : String) (eventK : List UInt8) : List UInt8 :=
  112 :: bar :: (bytesOf runID ++ bar :: (bytesOf taskID ++ bar :: suffixOf eventK))

/-- `splitEventKey`: an `int64` and a `uint64`. -/
def splitEventKey (k : List UInt8) : Int × Nat :=
  let ts := ofBigEndian ((suffixOf k).take 8)
  (if ts < 2 ^ 63 then ts else ts - 2 ^ 64, ofBigEndian ((suffixOf k).drop 8))

/-- What the event keys of a run begin with. -/
def runStem (kind : UInt8) (runID : String) : List UInt8 := kind :: bar :: (bytesOf runID ++ [bar])

/-- What the index entries of a task begin with. -/
def flipStem (runID taskID : String) : List UInt8 :=
  112 :: bar :: (bytesOf runID ++ bar :: (bytesOf taskID ++ [bar]))

namespace Keyed

/-! ## Operations -/

section Apply

variable (marshal : List UInt8 → Except String Unit)

/-- `applyValueWrite`, with the arrival number it has drawn. -/
def applyValueWrite (db : Database) (seq : Nat) (runID : String) (w : ValueWrite) :
    Except String Database :=
  match marshal w.value with
  | .error e => .error ("value write: encode: " ++ e)
  | .ok () =>
    let key := eventKey 118 runID w.timestamp.nanos seq
    .ok ((db.set key (.value (w.toRec .pending))).set (pendingKey runID w.taskID key) (.key key))

/-- `applyHistoryEntry`, with the arrival number it has drawn. -/
def applyHistoryEntry (db : Database) (seq : Nat) (runID : String) (h : HistoryEntry) :
    Except String Database :=
  match marshal h.stored with
  | .error e => .error ("history entry: encode: " ++ e)
  | .ok () => .ok (db.set (eventKey 104 runID h.timestamp.nanos seq) (.history h.toRec))

/-- The second loop of `applyStatusFlip`, over the index entries the first has found. -/
def settleEntries (f : StatusFlip) (db : Database) : List (List UInt8 × Stored) →
    Except String Database
  | [] => .ok db
  | (pendingK, cell) :: found =>
    match db.get cell.asKey with
    | some (.value rec) =>
      settleEntries f
        ((db.set cell.asKey (.value { rec with status := f.newStatus.string })).delete pendingK)
          found
    | some _ => .error "status flip: decode"
    | none => .error ("status flip: dangling pending index for task " ++ f.taskID)

end Apply

/-! ## Reading -/

section Read

-- how a store iterates over the entries whose keys begin with given bytes
variable (iter : Database → List UInt8 → List (List UInt8 × Stored))
  (db : Database) (runID : String)

/-- `applyStatusFlip`. -/
def applyStatusFlip (f : StatusFlip) : Except String Database :=
  settleEntries f db (iter db (flipStem runID f.taskID))

/-- `runMeta`: the metadata, and whether the run exists. -/
def runMeta : Except String (RunMetadata × Bool) :=
  match db.get (metaKey runID) with
  | some (.metadata m) => .ok (m, true)
  | some _ => .error "decode metadata"
  | none => .ok (.blank runID, [118, 104].any fun kind => !(iter db (runStem kind runID)).isEmpty)

/-- One round of the loop of `CurrentVersion`. -/
def foldValue (vs : FieldValues) : Stored → Except String FieldValues
  | .value rec => .ok (vs.putRec rec)
  | _ => .error "decode value record"

/-- `CurrentVersion`. -/
def currentVersion : Except String (Option CurrentVersion) := do
  let (metadata, exist) ← runMeta iter db runID
  if exist then
    let values ← (iter db (runStem 118 runID)).foldlM (fun vs e => foldValue vs e.2) fun _ => none
    return some ⟨metadata, values⟩
  else return none

/-- One round of the first loop of `FullHistory`. -/
def readValue (e : List UInt8 × Stored) : Except String ValueRecord :=
  match e.2 with
  | .value rec => rec.read (splitEventKey e.1)
  | _ => .error "decode value record"

/-- One round of the second loop of `FullHistory`. -/
def readHistory (e : List UInt8 × Stored) : Except String HistoryRecord :=
  match e.2 with
  | .history rec => .ok (rec.read (splitEventKey e.1))
  | _ => .error "decode history record"

/-- `FullHistory`, in the order of the keys. -/
def fullHistory : Except String (Option FullHistory) := do
  let (metadata, exist) ← runMeta iter db runID
  if exist then
    let values ← (iter db (runStem 118 runID)).mapM readValue
    let history ← (iter db (runStem 104 runID)).mapM readHistory
    return some ⟨metadata, values, history⟩
  else return none

end Read

/-! ## Batches -/

section Batch

variable (marshal : List UInt8 → Except String Unit)
  (iter : Database → List UInt8 → List (List UInt8 × Stored))

/-- What a batch does for one event, with the arrival number a record gets. -/
def applyEvent (db : Database) (seq : Nat) (runID : String) : Event → Except String Database
  | .value w => applyValueWrite marshal db seq runID w
  | .flip f => applyStatusFlip iter db runID f
  | .history h => applyHistoryEntry marshal db seq runID h

-- an arrival number is drawn from a counter, which is then moved on
variable (draw : Nat → Nat × Nat)

/-- One round of the second loop of `WriteBatch`, and the counter after it. -/
def applyOp (db : Database) (n : Nat) (op : WriteOp) : Except String Database × Nat :=
  match op.event? with
  | none => (.ok db, n)
  | some (.flip f) => (applyEvent marshal iter db 0 op.runID (.flip f), n)
  | some e => (applyEvent marshal iter db (draw n).1 op.runID e, (draw n).2)

/-- The second loop of `WriteBatch`.  The numbers that were drawn stay drawn when it
fails. -/
def applyOps (db : Database) (n : Nat) : List WriteOp → Except String Database × Nat
  | [] => (.ok db, n)
  | op :: ops =>
    match applyOp marshal iter draw db n op with
    | (.error e, n) => (.error e, n)
    | (.ok db, n) => applyOps db n ops

end Batch

end Keyed

/-! ## What the keys tell -/

section Keys

variable {runID runID' taskID : String} {ts ts' : Int} {seq seq' : Nat} {kind : UInt8}

@[simp] lemma length_eventSuffix (ts : Int) (seq : Nat) : (eventSuffix ts seq).length = 16 := by
  simp [eventSuffix]

lemma suffixOf_append (a : List UInt8) {s : List UInt8} (h : s.length = 16) :
    suffixOf (a ++ s) = s := by
  rw [suffixOf, List.length_append, h, Nat.add_sub_cancel, List.drop_left]

@[simp] lemma suffixOf_eventKey : suffixOf (eventKey kind runID ts seq) = eventSuffix ts seq := by
  have h := suffixOf_append (kind :: bar :: (bytesOf runID ++ [bar])) (length_eventSuffix ts seq)
  simpa [eventKey] using h

@[simp] lemma suffixOf_pendingKey :
    suffixOf (pendingKey runID taskID (eventKey kind runID' ts seq)) = eventSuffix ts seq := by
  have h := suffixOf_append (112 :: bar :: (bytesOf runID ++ bar :: (bytesOf taskID ++ [bar])))
    (length_eventSuffix ts seq)
  simpa [pendingKey] using h

lemma GoTime.nanos_range (t : GoTime) : -2 ^ 63 ≤ t.nanos ∧ t.nanos < 2 ^ 63 := by
  rw [GoTime.nanos]
  omega

lemma toNat_emod_lt (ts : Int) : (ts % 2 ^ 64).toNat < 256 ^ 8 := by
  omega

/-- The suffix tells the arrival number. -/
lemma seq_of_eventSuffix (hs : seq < 2 ^ 64) (hs' : seq' < 2 ^ 64)
    (h : eventSuffix ts seq = eventSuffix ts' seq') : seq = seq' := by
  have h := (List.append_inj h (by simp)).2
  exact (bigEndian_inj (w := 8) (by omega) (by omega)).1 h

/-- Suffixes are in the order of unsigned time and arrival. -/
lemma eventSuffix_lt_iff {t t' : GoTime} (hs : seq < 2 ^ 64) (hs' : seq' < 2 ^ 64) :
    eventSuffix t.nanos seq < eventSuffix t'.nanos seq' ↔
      t.unsigned < t'.unsigned ∨ t.unsigned = t'.unsigned ∧ seq < seq' := by
  rw [eventSuffix, eventSuffix, append_lt_append_of_length (by simp),
    bigEndian_lt_iff (toNat_emod_lt _) (toNat_emod_lt _),
    bigEndian_inj (toNat_emod_lt _) (toNat_emod_lt _), bigEndian_lt_iff (by omega) (by omega)]
  rfl

/-- And so are the keys of a run. -/
lemma eventKey_lt_iff {t t' : GoTime} (hs : seq < 2 ^ 64) (hs' : seq' < 2 ^ 64) :
    eventKey kind runID t.nanos seq < eventKey kind runID t'.nanos seq' ↔
      t.unsigned < t'.unsigned ∨ t.unsigned = t'.unsigned ∧ seq < seq' := by
  have hstem (x : List UInt8) :
      kind :: bar :: (bytesOf runID ++ bar :: x) = runStem kind runID ++ x := by
    simp [runStem]
  rw [eventKey, eventKey, hstem, hstem, append_lt_append_of_length rfl, eventSuffix_lt_iff hs hs']
  simp

lemma splitEventKey_eventKey (hs : seq < 2 ^ 64) (t : GoTime) :
    splitEventKey (eventKey kind runID t.nanos seq) = (t.nanos, seq) := by
  have htake : (eventSuffix t.nanos seq).take 8 = bigEndian 8 (t.nanos % 2 ^ 64).toNat := by
    rw [eventSuffix, List.take_left' (length_bigEndian 8 _)]
  have hdrop : (eventSuffix t.nanos seq).drop 8 = bigEndian 8 seq := by
    rw [eventSuffix, List.drop_left' (length_bigEndian 8 _)]
  rw [splitEventKey, suffixOf_eventKey, htake, hdrop, ofBigEndian_bigEndian (toNat_emod_lt _),
    ofBigEndian_bigEndian (by omega)]
  obtain ⟨hlo, hhi⟩ := t.nanos_range
  generalize t.nanos = x at hlo hhi
  by_cases hx : (x % 2 ^ 64).toNat < 2 ^ 63
  · rw [if_pos hx, Prod.mk.injEq]
    omega
  · rw [if_neg hx, Prod.mk.injEq]
    omega

end Keys

end Blkit
