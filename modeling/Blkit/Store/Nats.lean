import Blkit.Data.Bucket
import Blkit.Data.Decimal
import Blkit.Store.Latest
import Blkit.Store.Readback

/-!
# The NATS state store

`stores/nats/store.go`: one JetStream key-value bucket, which several handles may share.
A value record lies under `run.v.ts.n` and a history record under `run.h.ts.n`, where `n`
counts the writes of one handle.  A status flip gets the records of the run one by one
and puts those it settles back under their keys, which gives them a new revision.

## What is taken from the server

The bucket (`Bucket`) does what the documentation of JetStream key-value buckets with a history
of one says:

* a put is carried out at once, takes the next revision of the bucket and replaces the entry
  of its key;
* a get returns the entry that was put last under the key;
* keys are listed in the order of the revisions of their entries, as messages are delivered.

Records are stored as they are; a record of one kind that is read as one of another kind
keeps the fields whose JSON names agree.
-/

namespace Blkit

open List

namespace Nats

/-! ## Keys -/

/-- The two kinds of records with keys of their own. -/
inductive Kind where
  | value | history
deriving DecidableEq, Repr

/-- The letter of a kind. -/
def Kind.letter : Kind → Char
  | .value => 'v'
  | .history => 'h'

/-- What the keys of a kind begin with. -/
def stem (kind : Kind) (runID : String) : List Char := runID.toList ++ ['.', kind.letter, '.']

/-- The part of a key after its stem. -/
def tail (ts : Int) (n : Nat) : List Char := paddedInt 20 ts ++ '.' :: padded 12 n

/-- `eventKey`, with the number the handle has drawn. -/
def eventKey (kind : Kind) (runID : String) (ts : Int) (n : Nat) : List Char :=
  stem kind runID ++ tail ts n

/-- `metaSuffix`. -/
def metaSuffix (runID : String) : List Char := runID.toList ++ ".meta".toList

/-- The keys of run `r'` begin with what the keys of a kind of run `r` begin with. -/
def Nested (r r' : String) : Prop := ∃ kind, stem kind r <+: r'.toList ++ ['.']

lemma dot_ne_letter (kind : Kind) : kind.letter ≠ '.' := by cases kind <;> decide

lemma letter_not_mem_tail (kind : Kind) (ts : Int) (n : Nat) : kind.letter ∉ tail ts n := by
  have hdigit : kind.letter.isDigit = false := by cases kind <;> rfl
  have hsign : kind.letter ≠ '-' := by cases kind <;> decide
  rw [tail, mem_append, mem_cons, not_or, not_or]
  refine ⟨not_mem_paddedInt hdigit hsign 20 ts, dot_ne_letter kind, fun h => ?_⟩
  rw [isDigit_of_mem_padded h] at hdigit
  cases hdigit

lemma dot_not_mem_padded (w n : Nat) : '.' ∉ padded w n := fun h =>
  absurd (isDigit_of_mem_padded h) (by decide)

variable {kind kind' : Kind} {r r' : String}

lemma stem_inj (h : stem kind r = stem kind' r') : kind = kind' ∧ r = r' := by
  obtain ⟨hr, hrest⟩ := append_inj' h rfl
  refine ⟨?_, String.toList_inj.1 hr⟩
  have hletter : kind.letter = kind'.letter := (cons.inj (cons.inj hrest).2).1
  cases kind <;> cases kind' <;> first | rfl | exact absurd hletter (by decide)

lemma stem_eq_concat (kind : Kind) (r : String) :
    stem kind r = ((r.toList ++ ['.']) ++ [kind.letter]) ++ ['.'] := by simp [stem]

/-- A stem that begins a text of a run is a stem of it, or reaches no further than the
name of the run, or the text has the letter of a kind in it. -/
lemma stem_isPrefix_append {t : List Char}
    (ht : kind.letter ∉ t) (h : stem kind r <+: stem kind' r' ++ t) :
    stem kind r = stem kind' r' ∨ Nested r r' := by
  rcases prefix_or_prefix_of_prefix h (prefix_append (stem kind' r') t) with h' | ⟨p, hp⟩
  · rw [stem_eq_concat kind' r', prefix_concat_iff, prefix_concat_iff,
      ← stem_eq_concat kind' r'] at h'
    rcases h' with h' | h' | h'
    · exact .inl h'
    · rw [stem_eq_concat] at h'
      have hlast : ['.'] = [kind'.letter] := (append_inj' h' rfl).2
      exact absurd (cons.inj hlast).1.symm (dot_ne_letter kind')
    · exact .inr ⟨kind, h'⟩
  · -- the stem would end among the characters of `t`
    left
    rw [← hp, prefix_append_right_inj] at h
    rcases eq_nil_or_concat p with rfl | ⟨q, z, rfl⟩
    · rw [← hp, append_nil]
    · rw [stem_eq_concat kind r, concat_eq_append, ← append_assoc] at hp
      have hp := (append_inj' hp rfl).1
      rcases eq_nil_or_concat q with rfl | ⟨q, z', rfl⟩
      · rw [append_nil, stem_eq_concat] at hp
        have hlast : ['.'] = [kind.letter] := (append_inj' hp rfl).2
        exact absurd (cons.inj hlast).1.symm (dot_ne_letter kind)
      · rw [concat_eq_append, ← append_assoc] at hp
        have hlast : [z'] = [kind.letter] := (append_inj' hp rfl).2
        refine absurd (h.subset ?_) ht
        rw [← (cons.inj hlast).1]
        simp

variable {ts : Int} {n : Nat}

lemma eventKey_eq_append (kind : Kind) (r : String) (ts : Int) (n : Nat) : eventKey kind r ts n =
      ((r.toList ++ ['.', kind.letter]) ++ '.' :: paddedInt 20 ts) ++ '.' :: padded 12 n := by
  simp [eventKey, stem, tail]

/-- A key shows the kind, the run, the timestamp and the number. -/
lemma eventKey_inj {ts' : Int} {n' : Nat} :
    eventKey kind r ts n = eventKey kind' r' ts' n' ↔ kind = kind' ∧
    r = r' ∧ ts = ts' ∧ n = n' := by
  constructor
  · intro h
    rw [eventKey_eq_append, eventKey_eq_append] at h
    obtain ⟨h, hn⟩ := append_sep_inj (dot_not_mem_padded 12 n) (dot_not_mem_padded 12 n') h
    have hdot (ts : Int) : '.' ∉ paddedInt 20 ts := not_mem_paddedInt rfl (by decide) 20 ts
    obtain ⟨h, hts⟩ := append_sep_inj (hdot ts) (hdot ts') h
    have hstem : stem kind r = stem kind' r' := by
      have := congrArg (· ++ ['.']) h
      simpa [stem] using this
    obtain ⟨hkind, hr⟩ := stem_inj hstem
    exact ⟨hkind, hr, paddedInt_injective 20 hts, padded_injective 12 hn⟩
  · rintro ⟨rfl, rfl, rfl, rfl⟩
    rfl

lemma metaSuffix_eq_append (r : String) : metaSuffix r = r.toList ++ '.' :: "meta".toList := rfl

/-- The key of metadata is not listed with the records of another run. -/
lemma stem_not_isPrefix_metaSuffix (hr : ¬ Nested r r') : ¬ stem kind r <+: metaSuffix r' := by
  intro h
  have hsplit : metaSuffix r' = (r'.toList ++ ['.']) ++ "meta".toList := by
    rw [metaSuffix_eq_append, append_assoc]
    rfl
  rw [hsplit] at h
  rcases prefix_or_prefix_of_prefix h (prefix_append _ _) with h' | ⟨p, hp⟩
  · exact hr ⟨kind, h'⟩
  · rw [← hp, prefix_append_right_inj] at h
    rcases eq_nil_or_concat p with rfl | ⟨q, z, rfl⟩
    · exact hr ⟨kind, by rw [← hp, append_nil]⟩
    · rw [stem_eq_concat kind r, concat_eq_append, ← append_assoc] at hp
      have hlast : [z] = ['.'] := (append_inj' hp rfl).2
      refine absurd (h.subset (show '.' ∈ q.concat z from ?_)) (by decide)
      rw [← (cons.inj hlast).1]
      simp

lemma metaSuffix_ne_eventKey : metaSuffix r ≠ eventKey kind r' ts n := by
  intro h
  rw [metaSuffix_eq_append, eventKey_eq_append] at h
  have hmeta := (append_sep_inj (by decide) (dot_not_mem_padded 12 n) h).2
  have hm : 'm' ∈ padded 12 n := hmeta ▸ (show 'm' ∈ "meta".toList by decide)
  exact absurd (isDigit_of_mem_padded hm) (by decide)

/-! ## Records and entries -/

/-- What is stored under a key, decoded. -/
inductive Record where
  | metadata (m : RunMetadata)
  | value (r : ValueRec)
  | history (r : HistoryRec)
deriving DecidableEq, Repr

/-- The record decoded into a `valueRec`.  Names are compared without case, so that the
status of metadata is read as a status. -/
def Record.asValue : Record → ValueRec
  | .value r => r
  | .history r => ⟨"", r.executionID, "", [], "", r.ts⟩
  | .metadata m => ⟨"", "", "", [], m.status, 0⟩

/-- The record decoded into a `historyRec`. -/
def Record.asHistory : Record → HistoryRec
  | .value r => ⟨"", none, r.executionID, [], r.ts⟩
  | .history r => r
  | .metadata _ => ⟨"", none, "", [], 0⟩

/-- The record decoded into `RunMetadata` with the run id filled in. -/
def Record.asMetadata (runID : String) : Record → RunMetadata
  | .value r => { RunMetadata.blank runID with status := r.status }
  | .history _ => .blank runID
  | .metadata m => m

/-- A key-value bucket with history depth 1. -/
abbrev KV := Bucket (List Char) Record

/-- `runKeys`. -/
def runKeys (kv : KV) (start : List Char) : List (List Char) :=
  kv.keys.filter fun k => start.isPrefixOf k

/-- The record a flip puts back, if it settles what it got. -/
def flipped (f : StatusFlip) (r : Record) : Option Record :=
  if r.asValue.taskID ≠ f.taskID ∨ r.asValue.status ≠ ValueStatus.pending.string then none
  else some (.value { r.asValue with status := f.newStatus.string })

/-! ## Reading -/

/-- `runMeta`: the metadata, and whether the run exists. -/
def runMeta (kv : KV) (runID : String) : RunMetadata × Bool :=
  match kv.get (metaSuffix runID) with
  | some e => (e.value.asMetadata runID, true)
  | none => (.blank runID, !(runKeys kv (runID.toList ++ ['.'])).isEmpty)

/-- One round of the loop of `loadValues`. -/
def loadValue (kv : KV) (k : List Char) : Except String ValueRecord :=
  match kv.get k with
  | none => .error "nats: key not found"
  | some e => e.value.asValue.read (e.value.asValue.ts, e.revision)

/-- `loadValues`. -/
def loadValues (kv : KV) (runID : String) : Except String (List ValueRecord) := do
  let recs ← (runKeys kv (stem .value runID)).mapM (loadValue kv)
  return sortValueRecords recs

/-- One round of the loop of `FullHistory`. -/
def loadEntry (kv : KV) (k : List Char) : Except String HistoryRecord :=
  match kv.get k with
  | none => .error "nats: key not found"
  | some e => .ok (e.value.asHistory.read (e.value.asHistory.ts, e.revision))

/-- `CurrentVersion`. -/
def currentVersion (kv : KV) (runID : String) : Except String (Option CurrentVersion) :=
  if !(runMeta kv runID).2 then .ok none
  else do
    let values ← loadValues kv runID
    return some ⟨(runMeta kv runID).1, values.foldl FieldValues.put fun _ => none⟩

/-- `FullHistory`. -/
def fullHistory (kv : KV) (runID : String) : Except String (Option FullHistory) :=
  if !(runMeta kv runID).2 then .ok none
  else do
    let values ← loadValues kv runID
    let history ← (runKeys kv (stem .history runID)).mapM (loadEntry kv)
    return some ⟨(runMeta kv runID).1, values, sortHistoryRecords history⟩

/-! ## Writing -/

/-- `Store`: a handle on a bucket, with the numbers it has drawn so far. -/
structure Handle where
  kv : KV
  n : Nat

section Calls

-- what the encoder says to a payload, and what the bucket says to a `Put` or `Get`
variable (marshal : List UInt8 → Except String Unit) (server : List Char → Except String Unit)
  (s : Handle)

/-- The counter draws a number for a record, which is put under its key. -/
def putEvent (kind : Kind) (runID : String) (ts : Int) (r : Record) : Except String Unit × Handle :=
  let key := eventKey kind runID ts ((s.n + 1) % 2 ^ 64)
  match server key with
  | .error e => (.error e, { s with n := s.n + 1 })
  | .ok () => (.ok (), ⟨s.kv.put key r, s.n + 1⟩)

/-- `applyValueWrite`. -/
def applyValueWrite (runID : String) (w : ValueWrite) : Except String Unit × Handle :=
  match marshal w.value with
  | .error e => (.error ("value write: encode: " ++ e), s)
  | .ok () => putEvent server s .value runID w.timestamp.nanos (.value (w.toRec .pending))

/-- `applyHistoryEntry`. -/
def applyHistoryEntry (runID : String) (h : HistoryEntry) : Except String Unit × Handle :=
  match marshal h.stored with
  | .error e => (.error ("history entry: encode: " ++ e), s)
  | .ok () => putEvent server s .history runID h.timestamp.nanos (.history h.toRec)

/-- The loop of `applyStatusFlip` over the listed keys. -/
def settleKeys (f : StatusFlip) (kv : KV) : List (List Char) → Except String Unit × KV
  | [] => (.ok (), kv)
  | k :: ks =>
    match kv.get k with
    | none => (.error "nats: key not found", kv)
    | some e =>
      match flipped f e.value with
      | none => settleKeys f kv ks
      | some r =>
        match server k with
        | .error e => (.error e, kv)
        | .ok () => settleKeys f (kv.put k r) ks

/-- `applyStatusFlip`. -/
def applyStatusFlip (runID : String) (f : StatusFlip) : Except String Unit × Handle :=
  let (result, kv) := settleKeys server f s.kv (runKeys s.kv (stem .value runID))
  (result, { s with kv })

/-- One round of the loop of `WriteBatch`. -/
def applyOp (op : WriteOp) : Except String Unit × Handle :=
  match op.event? with
  | none => (.ok (), s)
  | some (.value w) => applyValueWrite marshal server s op.runID w
  | some (.flip f) => applyStatusFlip server s op.runID f
  | some (.history h) => applyHistoryEntry marshal server s op.runID h

/-- The loop of `WriteBatch`: what was applied before an error stays. -/
def applyOps (s : Handle) : List WriteOp → Except String Unit × Handle
  | [] => (.ok (), s)
  | op :: ops =>
    match applyOp marshal server s op with
    | (.error e, s') => (.error e, s')
    | (.ok (), s') => applyOps s' ops

/-- `WriteBatch`. -/
def writeBatch (ops : List WriteOp) : Except String Unit × Handle :=
  match ops.forM validateWriteOp with
  | .error e => (.error e, s)
  | .ok () => applyOps marshal server s ops

/-- `Save`. -/
def save (encode : RunMetadata → Except String Unit) (m : RunMetadata) :
    Except String Unit × Handle :=
  if m.runID = "" then (.error "save: empty RunID", s)
  else
    match encode m with
    | .error e => (.error ("save: encode metadata: " ++ e), s)
    | .ok () =>
      match server (metaSuffix m.runID) with
      | .error e => (.error e, s)
      | .ok () => (.ok (), { s with kv := s.kv.put (metaSuffix m.runID) (.metadata m) })

end Calls

end Nats

end Blkit
