import Blkit.Order.Stable
import Blkit.Store.InMemory

/-!
# What the in-memory store remembers

The abstract side of the store is the list of events accepted for a run.  From it
everything the store answers can be read off: the arrival number of a write counts
the writes and history entries up to it, and its status is what the first later flip
for its task says.  `Log.foldl_apply` connects the two, and the answers of
`CurrentVersion` and `FullHistory` follow by sorting.
-/

namespace Blkit

open List

/-! ## Accepted events -/

/-- The operations a call gets accepted. -/
def StoreCall.accepted : StoreCall → List WriteOp
  | .save _ => []
  | .writeBatch ops => if ∀ op ∈ ops, op.Valid then ops else []

/-- The events accepted for a run, in order of arrival. -/
def eventsOf (runID : String) (calls : List StoreCall) : List Event :=
  ((calls.flatMap StoreCall.accepted).filter fun op => op.runID = runID).filterMap WriteOp.event?

lemma eventsOf_append (runID : String) (xs ys : List StoreCall) :
    eventsOf runID (xs ++ ys) = eventsOf runID xs ++ eventsOf runID ys := by
  simp [eventsOf]

lemma valid_of_mem_accepted {c : StoreCall} {op : WriteOp} (h : op ∈ c.accepted) : op.Valid := by
  cases c with
  | save m => simp [StoreCall.accepted] at h
  | writeBatch ops =>
    rw [StoreCall.accepted] at h
    split at h
    case isTrue hv => exact hv op h
    case isFalse => simp at h

/-- Accepted flips commit or abort. -/
lemma settling_of_mem_eventsOf {runID : String} {calls : List StoreCall} {e : Event}
    (h : e ∈ eventsOf runID calls) : e.Settling := by
  obtain ⟨op, hop, he⟩ := mem_filterMap.1 h
  obtain ⟨c, -, hc⟩ := mem_flatMap.1 (mem_filter.1 hop).1
  obtain ⟨e', he', hs⟩ := (valid_of_mem_accepted hc).event
  rw [he] at he'
  cases he'
  exact hs

/-! ## The log of a run is the fold of its events -/

/-- The log of what is known of a run. -/
def logOf (o : Option InMemoryRun) : Log := o.elim ⟨[], [], 0⟩ InMemoryRun.toLog

@[simp] lemma logOf_some (r : InMemoryRun) : logOf (some r) = r.toLog := rfl

lemma toLog_getD (runID : String) (o : Option InMemoryRun) :
    (o.getD (newRun runID)).toLog = logOf o := by
  cases o <;> rfl

lemma logOf_foldl_opStep (runID : String) (o : Option InMemoryRun) (ops : List WriteOp) :
    logOf (ops.foldl (opStep runID) o) =
      ((ops.filter fun op => op.runID = runID).filterMap WriteOp.event?).foldl Log.apply
        (logOf o) := by
  induction ops generalizing o with
  | nil => rfl
  | cons op ops ih =>
    rw [foldl_cons, ih]
    by_cases h : op.runID = runID
    · rw [filter_cons_of_pos (by simpa using h), filterMap_cons]
      have hstep : logOf (opStep runID o op) = (op.event?).elim (logOf o) (logOf o).apply := by
        simp only [opStep, h, if_true, logOf_some, toLog_getD]
      rw [hstep]
      cases op.event? <;> rfl
    · rw [filter_cons_of_neg (by simpa using h)]
      simp [opStep, h]

lemma logOf_callStep (runID : String) (o : Option InMemoryRun) (c : StoreCall) :
    logOf (callStep runID o c) = (eventsOf runID [c]).foldl Log.apply (logOf o) := by
  cases c with
  | save m =>
    have hnil : eventsOf runID [.save m] = [] := rfl
    rw [hnil, callStep]
    split
    · exact toLog_getD runID o
    · rfl
  | writeBatch ops =>
    rw [callStep, eventsOf, flatMap_singleton, StoreCall.accepted]
    split
    · exact logOf_foldl_opStep runID o ops
    · rfl

/-- After any calls, the log of a run is the fold of the events accepted for it. -/
lemma logOf_foldl_callStep (runID : String) (o : Option InMemoryRun) (calls : List StoreCall) :
    logOf (calls.foldl (callStep runID) o) = (eventsOf runID calls).foldl Log.apply (logOf o) := by
  induction calls generalizing o with
  | nil => rfl
  | cons c calls ih =>
    have hsplit := eventsOf_append runID [c] calls
    rw [singleton_append] at hsplit
    rw [foldl_cons, ih, hsplit, foldl_append, logOf_callStep]

/-! ## The log read off the events -/

/-- What the first flip for a task says; without one its writes are pending. -/
def settled : List Event → String → ValueStatus
  | [], _ => .pending
  | .flip f :: es, task => if f.taskID = task then f.newStatus else settled es task
  | .value _ :: es, task => settled es task
  | .history _ :: es, task => settled es task

/-- The number of writes and history entries. -/
def arrivals : List Event → Nat
  | [] => 0
  | .flip _ :: es => arrivals es
  | .value _ :: es => arrivals es + 1
  | .history _ :: es => arrivals es + 1

/-- The records of the writes, when `n` arrival numbers have been given out. -/
def valuesFrom (n : Nat) : List Event → List ValueRecord
  | [] => []
  | .value w :: es => ⟨w, settled es w.taskID, n + 1⟩ :: valuesFrom (n + 1) es
  | .flip _ :: es => valuesFrom n es
  | .history _ :: es => valuesFrom (n + 1) es

/-- The records of the history entries. -/
def historyFrom (n : Nat) : List Event → List HistoryRecord
  | [] => []
  | .value _ :: es => historyFrom (n + 1) es
  | .flip _ :: es => historyFrom n es
  | .history h :: es => ⟨h, n + 1⟩ :: historyFrom (n + 1) es

/-- A record after later events: a pending one follows the first flip for its task. -/
def ValueRecord.after (es : List Event) (r : ValueRecord) : ValueRecord :=
  if r.status = .pending then { r with status := settled es r.taskID } else r

lemma ValueRecord.after_nil (r : ValueRecord) : r.after [] = r := by
  obtain ⟨w, st, n⟩ := r
  by_cases h : st = .pending
  · subst h
    rfl
  · simp [after, h]

lemma ValueRecord.after_flip {f : StatusFlip} (hf : (Event.flip f).Settling) (es : List Event)
    (r : ValueRecord) : (f.settle r).after es = r.after (.flip f :: es) := by
  obtain ⟨w, st, n⟩ := r
  by_cases h : st = .pending
  · by_cases ht : w.taskID = f.taskID
    · simp [StatusFlip.settle, after, settled, h, ht, hf.ne_pending]
    · simp [StatusFlip.settle, after, settled, h, ht, Ne.symm ht]
  · simp [StatusFlip.settle, after, h]

/-- A log after events: the old records as later flips leave them, then the new. -/
lemma Log.foldl_apply (es : List Event) (hes : ∀ e ∈ es, e.Settling) (l : Log) :
    es.foldl Log.apply l = ⟨l.values.map (ValueRecord.after es) ++ valuesFrom l.seq es,
        l.history ++ historyFrom l.seq es, l.seq + arrivals es⟩ := by
  induction es generalizing l with
  | nil =>
    have h : ValueRecord.after [] = id := funext ValueRecord.after_nil
    simp [valuesFrom, historyFrom, arrivals, h]
  | cons e es ih =>
    rw [foldl_cons, ih fun e' h => hes e' (mem_cons_of_mem _ h)]
    cases e with
    | value w =>
      -- the write itself is pending, so it follows what comes after it
      have h : ∀ r : ValueRecord, r.after (.value w :: es) = r.after es := fun r => rfl
      simp only [Log.apply, map_append, map_cons, map_nil, valuesFrom, historyFrom,
        arrivals, append_assoc, singleton_append, funext h, Log.mk.injEq, true_and]
      exact ⟨rfl, by omega⟩
    | flip f =>
      have h : ∀ r : ValueRecord, (f.settle r).after es = r.after (.flip f :: es) :=
        ValueRecord.after_flip (hes _ (by simp)) es
      simp [Log.apply, valuesFrom, historyFrom, arrivals, Function.comp_def, h]
    | history e =>
      have h : ∀ r : ValueRecord, r.after (.history e :: es) = r.after es := fun r => rfl
      simp only [Log.apply, valuesFrom, historyFrom, arrivals, append_assoc,
        singleton_append, funext h, Log.mk.injEq, true_and]
      omega

/-- What a fresh store holds of a run after some calls. -/
lemma logOf_exec (runID : String) (calls : List StoreCall) :
    logOf ((newInMemoryStateStore.exec calls).runs runID) =
      ⟨valuesFrom 0 (eventsOf runID calls), historyFrom 0 (eventsOf runID calls),
        arrivals (eventsOf runID calls)⟩ := by
  have hs : ∀ e ∈ eventsOf runID calls, e.Settling := fun e => settling_of_mem_eventsOf
  rw [InMemoryStateStore.exec_runs, logOf_foldl_callStep, Log.foldl_apply _ hs]
  simp [logOf, newInMemoryStateStore]

/-! ## Records and positions -/

variable {n : Nat} {es : List Event} {r : ValueRecord}

/-- The records of the writes, by the position of the write among the events. -/
lemma mem_valuesFrom : r ∈ valuesFrom n es ↔ ∃ i w, es[i]? = some (.value w) ∧
      r = ⟨w, settled (es.drop (i + 1)) w.taskID, n + arrivals (es.take i) + 1⟩ := by
  induction es generalizing n r with
  | nil => simp [valuesFrom]
  | cons e es ih =>
    -- a later position is a position of the tail
    have hsucc : ∀ m, r ∈ valuesFrom m es → m = n + arrivals [e] →
        ∃ i w, (e :: es)[i]? = some (.value w) ∧ r = ⟨w, settled ((e :: es).drop (i + 1)) w.taskID,
            n + arrivals ((e :: es).take i) + 1⟩ := by
      rintro m hr rfl
      obtain ⟨i, w, hi, rfl⟩ := ih.1 hr
      refine ⟨i + 1, w, hi, ?_⟩
      cases e <;> simp [arrivals] <;> omega
    have hpred : ∀ i w, (e :: es)[i + 1]? = some (.value w) →
        ⟨w, settled ((e :: es).drop (i + 1 + 1)) w.taskID,
            n + arrivals ((e :: es).take (i + 1)) + 1⟩ ∈ valuesFrom (n + arrivals [e]) es := by
      intro i w hi
      refine ih.2 ⟨i, w, hi, ?_⟩
      cases e <;> simp [arrivals] <;> omega
    cases e with
    | value w₀ =>
      rw [valuesFrom, mem_cons]
      constructor
      · rintro (rfl | hr)
        · exact ⟨0, w₀, rfl, rfl⟩
        · exact hsucc _ hr rfl
      · rintro ⟨i, w, hi, rfl⟩
        cases i with
        | zero =>
          cases hi
          exact .inl rfl
        | succ i => exact .inr (hpred i w hi)
    | flip f | history h =>
      rw [valuesFrom]
      constructor
      · intro hr
        exact hsucc _ hr rfl
      · rintro ⟨i, w, hi, rfl⟩
        cases i with
        | zero => cases hi
        | succ i => exact hpred i w hi

lemma lt_seq_of_mem_valuesFrom (h : r ∈ valuesFrom n es) : n < r.seq := by
  obtain ⟨i, w, -, rfl⟩ := mem_valuesFrom.1 h
  show n < n + arrivals (es.take i) + 1
  omega

lemma valuesFrom_pairwise (n : Nat) (es : List Event) :
    (valuesFrom n es).Pairwise fun a b => a.seq < b.seq := by
  induction es generalizing n with
  | nil => exact List.Pairwise.nil
  | cons e es ih =>
    cases e with
    | value w => exact pairwise_cons.2 ⟨fun r hr => lt_seq_of_mem_valuesFrom hr, ih _⟩
    | flip f => exact ih n
    | history h => exact ih _

lemma arrivals_append (es es' : List Event) :
    arrivals (es ++ es') = arrivals es + arrivals es' := by
  induction es with
  | nil => simp [arrivals]
  | cons e es ih => cases e <;> simp only [cons_append, arrivals, ih] <;> omega

/-- Later writes have greater arrival numbers. -/
lemma arrivals_take_lt {i j : Nat} {w : ValueWrite} (hi : es[i]? = some (.value w)) (h : i < j) :
    arrivals (es.take i) < arrivals (es.take j) := by
  have hsucc : es.take (i + 1) = es.take i ++ [.value w] := by
    rw [take_add_one, hi]
    rfl
  obtain ⟨rest, hrest⟩ : es.take (i + 1) <+: es.take j := take_prefix_take_left h
  rw [← hrest, hsucc, arrivals_append, arrivals_append]
  simp only [arrivals]
  omega

end Blkit
