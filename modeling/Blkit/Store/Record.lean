import Mathlib.Data.List.Sort
import Mathlib.Data.Prod.Lex
import Blkit.Data.Bytes
import Blkit.Value.Basic

/-!
# The write contract of the state stores

The operations every backend receives and the records it serves back
(`core/state_store.go`).  Backends check an operation with `ValidateWriteOp` before
they apply it, and bring records into replay order, by timestamp and then by arrival
number, with `SortValueRecords` and `SortHistoryRecords`.

A slice of bytes is the list of its bytes, and a timestamp is the instant it denotes
with the offset of its location: the clock reading that only compares times of one
process is not part of it.
-/

namespace Blkit

/-- `time.Time.IsZero`: January 1 of the year 1, 00:00:00 UTC. -/
def GoTime.isZero (t : GoTime) : Bool := t.unixNano = -62135596800000000000

/-- `ValueStatus`, a Go integer with three named values. -/
inductive ValueStatus where
  | pending | committed | aborted
  | other (code : Int)
deriving DecidableEq, Repr

/-- `ValueStatus.String`. -/
def ValueStatus.string : ValueStatus → String
  | .pending => "pending"
  | .committed => "committed"
  | .aborted => "aborted"
  | .other code => "ValueStatus(" ++ toString code ++ ")"

/-- `WriteOpKind`, a Go integer with three named values. -/
inductive WriteOpKind where
  | valueWrite | statusFlip | historyEntry
  | other (code : Int)
deriving DecidableEq, Repr

/-- One field written by a task. -/
structure ValueWrite where
  taskID : String
  executionID : String
  field : String
  value : List UInt8
  timestamp : GoTime
deriving DecidableEq, Repr

/-- Settles the pending writes of a task. -/
structure StatusFlip where
  taskID : String
  newStatus : ValueStatus
  timestamp : GoTime
deriving DecidableEq, Repr

/-- One entry of the execution history. -/
structure HistoryEntry where
  kind : String
  nodeID : Option String
  executionID : String
  payload : List UInt8
  timestamp : GoTime
deriving DecidableEq, Repr

/-- One unit of the write stream: the payload that counts is the one `kind` names. -/
structure WriteOp where
  runID : String
  kind : WriteOpKind
  valueWrite : Option ValueWrite
  statusFlip : Option StatusFlip
  historyEntry : Option HistoryEntry
deriving DecidableEq, Repr

/-- A stored write: the write, its status and its arrival number. -/
structure ValueRecord extends ValueWrite where
  status : ValueStatus
  seq : Nat
deriving DecidableEq, Repr

/-- A stored history entry with its arrival number. -/
structure HistoryRecord extends HistoryEntry where
  seq : Nat
deriving DecidableEq, Repr

/-- The metadata of a run. -/
structure RunMetadata where
  runID : String
  processID : String
  processVersion : String
  status : String
  publishedAt : Option GoTime
  startedAt : Option GoTime
  completedAt : Option GoTime
  evaluationCount : Int
deriving DecidableEq, Repr

/-- `RunMetadata{RunID: runID}`. -/
def RunMetadata.blank (runID : String) : RunMetadata := ⟨runID, "", "", "", none, none, none, 0⟩

/-- `ValidateWriteOp`. -/
def validateWriteOp (op : WriteOp) : Except String Unit :=
  if op.runID = "" then .error "write op: empty RunID"
  else match op.kind with
    | .valueWrite => match op.valueWrite with
      | none => .error "write op: Kind OpValueWrite with nil ValueWrite"
      | some w =>
        if w.taskID = "" ∨ w.field = "" ∨ w.executionID = "" then
          .error "value write: TaskID, ExecutionID and Field are required"
        else if w.timestamp.isZero then .error "value write: zero Timestamp"
        else .ok ()
    | .statusFlip => match op.statusFlip with
      | none => .error "write op: Kind OpStatusFlip with nil StatusFlip"
      | some f =>
        if f.taskID = "" then .error "status flip: TaskID is required"
        else if f.newStatus ≠ .committed ∧ f.newStatus ≠ .aborted then
          .error ("status flip: NewStatus must be committed or aborted, got " ++ f.newStatus.string)
        else .ok ()
    | .historyEntry => match op.historyEntry with
      | none => .error "write op: Kind OpHistoryEntry with nil HistoryEntry"
      | some h =>
        if h.kind = "" then .error "history entry: Kind is required"
        else if h.timestamp.isZero then .error "history entry: zero Timestamp"
        else .ok ()
    | .other code => .error ("write op: unknown kind " ++ toString code)

/-- The operation passes `ValidateWriteOp`. -/
def WriteOp.Valid (op : WriteOp) : Prop := validateWriteOp op = .ok ()

instance (op : WriteOp) : Decidable op.Valid :=
  inferInstanceAs (Decidable (validateWriteOp op = .ok ()))

/-! ## What an operation does -/

/-- The payload an operation is applied for. -/
inductive Event where
  | value (w : ValueWrite)
  | flip (f : StatusFlip)
  | history (h : HistoryEntry)
deriving DecidableEq, Repr

/-- The payload `kind` names. -/
def WriteOp.event? (op : WriteOp) : Option Event :=
  match op.kind with
  | .valueWrite => op.valueWrite.map .value
  | .statusFlip => op.statusFlip.map .flip
  | .historyEntry => op.historyEntry.map .history
  | .other _ => none

/-- A flip settles a write one way or the other; the other events are free. -/
def Event.Settling : Event → Prop
  | .flip f => f.newStatus = .committed ∨ f.newStatus = .aborted
  | _ => True

lemma Event.Settling.ne_pending {f : StatusFlip} (h : (Event.flip f).Settling) :
    f.newStatus ≠ .pending := by
  rcases h with h | h <;> rw [h] <;> exact nofun

/-- What `ValidateWriteOp` guarantees to the code that applies an operation. -/
lemma WriteOp.Valid.event {op : WriteOp} (h : op.Valid) : ∃ e, op.event? = some e ∧ e.Settling := by
  unfold Valid validateWriteOp at h
  split at h
  · cases h
  · rw [event?]
    cases hk : op.kind with
    | valueWrite =>
      cases hw : op.valueWrite with
      | none => simp [hk, hw] at h
      | some w => exact ⟨.value w, rfl, trivial⟩
    | statusFlip =>
      cases hf : op.statusFlip with
      | none => simp [hk, hf] at h
      | some f =>
        refine ⟨.flip f, rfl, ?_⟩
        by_contra hs
        rw [Event.Settling, not_or] at hs
        simp only [hk, hf, ne_eq, hs, not_false_eq_true, and_self, if_true] at h
        split at h <;> cases h
    | historyEntry =>
      cases hh : op.historyEntry with
      | none => simp [hk, hh] at h
      | some e => exact ⟨.history e, rfl, trivial⟩
    | other code => simp [hk] at h

/-! ## Replay order -/

/-- The comparison of `SortValueRecords` and `SortHistoryRecords`. -/
def replayLess (t t' : GoTime) (seq seq' : Nat) : Bool :=
  if t.unixNano ≠ t'.unixNano then t.unixNano < t'.unixNano else seq < seq'

/-- The place of a record in replay order. -/
def replayKey (t : GoTime) (seq : Nat) : ℤ ×ₗ ℕ := toLex (t.unixNano, seq)

lemma replayKey_le {t t' : GoTime} {n n' : Nat} : replayKey t n ≤ replayKey t' n' ↔
      t.unixNano < t'.unixNano ∨ t.unixNano = t'.unixNano ∧ n ≤ n' := by
  rw [replayKey, replayKey, Prod.Lex.toLex_le_toLex]

lemma replayLess_iff {t t' : GoTime} {n n' : Nat} :
    replayLess t t' n n' ↔ replayKey t n < replayKey t' n' := by
  rw [replayKey, replayKey, Prod.Lex.toLex_lt_toLex, replayLess]
  by_cases h : t.unixNano = t'.unixNano <;> simp [h]

section Stable

variable {α : Type}

/-- A stable sort by a place in replay order: an element stays before a later one
that does not compare less. -/
def sortReplay (time : α → GoTime) (seq : α → Nat) (recs : List α) : List α :=
  recs.insertionSort fun a b => !replayLess (time b) (time a) (seq b) (seq a)

variable (time : α → GoTime) (seq : α → Nat)

lemma sortReplay_perm (recs : List α) : (sortReplay time seq recs).Perm recs :=
  List.perm_insertionSort _ _

lemma sortReplay_pairwise (recs : List α) : (sortReplay time seq recs).Pairwise fun a b =>
      replayKey (time a) (seq a) ≤ replayKey (time b) (seq b) := by
  have hle : ∀ a b, (!replayLess (time b) (time a) (seq b) (seq a)) = true ↔
      replayKey (time a) (seq a) ≤ replayKey (time b) (seq b) := by
    intro a b
    rw [Bool.not_eq_true', ← Bool.not_eq_true, replayLess_iff, not_lt]
  have : IsTrans α fun a b => (!replayLess (time b) (time a) (seq b) (seq a)) = true :=
    ⟨fun a b c hab hbc => (hle a c).2 (((hle a b).1 hab).trans ((hle b c).1 hbc))⟩
  have : Std.Total fun a b : α => (!replayLess (time b) (time a) (seq b) (seq a)) = true :=
    ⟨fun a b => (le_total _ _).imp (hle a b).2 (hle b a).2⟩
  exact (List.pairwise_insertionSort _ recs).imp fun h => (hle _ _).1 h

end Stable

/-- `SortValueRecords`. -/
def sortValueRecords : List ValueRecord → List ValueRecord :=
  sortReplay (fun r => r.timestamp) fun r => r.seq

/-- `SortHistoryRecords`. -/
def sortHistoryRecords : List HistoryRecord → List HistoryRecord :=
  sortReplay (fun r => r.timestamp) fun r => r.seq

/-! ## Some operations -/

/-- A write of a task. -/
def someWrite (taskID : String) : ValueWrite := ⟨taskID, "e", "f", bytesOf "null", ⟨1, 0⟩⟩

/-- A write of a task of a run. -/
def taskOp (runID taskID : String) : WriteOp where
  runID := runID
  kind := .valueWrite
  valueWrite := some (someWrite taskID)
  statusFlip := none
  historyEntry := none

/-- A write of task `t` and field `f` of run `a`. -/
def writeAt (ts : Int) (value : String) : WriteOp where
  runID := "a"
  kind := .valueWrite
  valueWrite := some ⟨"t", "e", "f", bytesOf value, ⟨ts, 0⟩⟩
  statusFlip := none
  historyEntry := none

/-- A flip of a task. -/
def commitOp (runID taskID : String) : WriteOp where
  runID := runID
  kind := .statusFlip
  valueWrite := none
  statusFlip := some ⟨taskID, .committed, ⟨1, 0⟩⟩
  historyEntry := none

end Blkit
