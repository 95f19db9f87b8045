import Blkit.Store.Replay

/-!
# The full history of a run

`FullHistory` serves every record of a run in replay order.  Each accepted write and
history entry is there once, with its data and its arrival number, and the only thing
that ever changes about a record is that a pending write is settled.  Batches compose:
an accepted batch may be cut anywhere, and batches on different runs do not see each
other.  A batch is checked as a whole before anything is written, so a refused one may
not be cut: its valid part alone would have been accepted.
-/

namespace Blkit

open List InMemoryStateStore

/-! ## Ids in use -/

/-- The ids an operation mentions are in use. -/
def WriteOp.Within (U : Set (String × String)) (op : WriteOp) : Prop :=
  match op.event? with
  | some (.value w) => (op.runID, w.taskID) ∈ U
  | some (.flip f) => (op.runID, f.taskID) ∈ U
  | some (.history _) => ∃ t, (op.runID, t) ∈ U
  | none => True

/-- The ids a call mentions are in use. -/
def StoreCall.Within (U : Set (String × String)) : StoreCall → Prop
  | .save m => ∃ t, (m.runID, t) ∈ U
  | .writeBatch ops => ∀ op ∈ ops, op.Within U

/-! ## Arrivals -/

/-- Whether the event is given an arrival number. -/
def Event.arrives : Event → Bool
  | .flip _ => false
  | _ => true

/-- The number of records in a batch. -/
def arrivalsOf (ops : List WriteOp) : Nat := arrivals (ops.filterMap WriteOp.event?)

/-- The number of records a call may bring. -/
def StoreCall.arrivals : StoreCall → Nat
  | .save _ => 0
  | .writeBatch ops => arrivalsOf ops

/-- The number of records a sequence of calls may bring. -/
def arrivalsIn (calls : List StoreCall) : Nat := (calls.map StoreCall.arrivals).sum

lemma arrivalsIn_append_singleton (calls : List StoreCall) (c : StoreCall) :
    arrivalsIn (calls ++ [c]) = arrivalsIn calls + c.arrivals := by
  simp [arrivalsIn]

/-- The writes and history entries in order of arrival, numbered from `n`. -/
def numbered (n : Nat) (es : List Event) : List (Event × Nat) := (es.filter Event.arrives).zipIdx n

/-- The numbered writes. -/
def writesOf (n : Nat) (es : List Event) : List (ValueWrite × Nat) :=
  (numbered n es).filterMap fun
    | (.value w, n) => some (w, n)
    | _ => none

/-- The numbered history entries. -/
def entriesOf (n : Nat) (es : List Event) : List (HistoryEntry × Nat) :=
  (numbered n es).filterMap fun
    | (.history h, n) => some (h, n)
    | _ => none

lemma map_valuesFrom (n : Nat) (es : List Event) :
    ((valuesFrom n es).map fun r => (r.toValueWrite, r.seq)) = writesOf (n + 1) es := by
  induction es generalizing n with
  | nil => rfl
  | cons e es ih =>
    cases e with
    | value w =>
      rw [valuesFrom, map_cons, ih]
      rfl
    | flip f => exact ih n
    | history h => exact ih (n + 1)

lemma map_historyFrom (n : Nat) (es : List Event) :
    ((historyFrom n es).map fun r => (r.toHistoryEntry, r.seq)) = entriesOf (n + 1) es := by
  induction es generalizing n with
  | nil => rfl
  | cons e es ih =>
    cases e with
    | value w => exact ih (n + 1)
    | flip f => exact ih n
    | history h =>
      rw [historyFrom, map_cons, ih]
      rfl

lemma historyFrom_pairwise (n : Nat) (es : List Event) : (∀ r ∈ historyFrom n es, n < r.seq) ∧
      (historyFrom n es).Pairwise fun a b => a.seq < b.seq := by
  induction es generalizing n with
  | nil => exact ⟨by simp [historyFrom], List.Pairwise.nil⟩
  | cons e es ih =>
    obtain ⟨hlt, hpair⟩ := ih (n + 1)
    cases e with
    | value w => exact ⟨fun r hr => Nat.lt_of_succ_lt (hlt r hr), hpair⟩
    | flip f => exact ih n
    | history h =>
      refine ⟨?_, pairwise_cons.2 ⟨hlt, hpair⟩⟩
      rintro r (_ | ⟨_, hr⟩)
      · exact Nat.lt_succ_self n
      · exact Nat.lt_of_succ_lt (hlt r hr)

/-- Sorting records with different arrival numbers leaves no two in the same place. -/
lemma sortReplay_strict {α : Type} (time : α → GoTime) (seq : α → Nat) {recs : List α}
    (h : recs.Pairwise fun a b => seq a < seq b) :
    (sortReplay time seq recs).Pairwise fun a b =>
      replayKey (time a) (seq a) < replayKey (time b) (seq b) := by
  have hne : (sortReplay time seq recs).Pairwise fun a b => seq a ≠ seq b :=
    (sortReplay_perm time seq recs).symm.pairwise (h.imp Nat.ne_of_lt) fun h => Ne.symm h
  refine (sortReplay_pairwise time seq recs).imp₂ (fun a b hle hab => ?_) hne
  exact lt_of_le_of_ne hle fun heq => hab (Prod.mk.inj (toLex.injective heq)).2

/-- A history that serves the accepted events: each write and each entry once, with all
its data and its arrival number, in replay order. -/
structure FullHistory.Serves (fh : FullHistory) (es : List Event) : Prop where
  values_perm : (fh.values.map fun r => (r.toValueWrite, r.seq)).Perm (writesOf 1 es)
  history_perm : (fh.history.map fun r => (r.toHistoryEntry, r.seq)).Perm (entriesOf 1 es)
  values_sorted : fh.values.Pairwise fun a b =>
    replayKey a.timestamp a.seq < replayKey b.timestamp b.seq
  history_sorted : fh.history.Pairwise fun a b =>
    replayKey a.timestamp a.seq < replayKey b.timestamp b.seq

lemma fullHistory_eq (s : InMemoryStateStore) (runID : String) (fh : FullHistory)
    (h : s.fullHistory runID = some fh) :
    fh.values = sortValueRecords (logOf (s.runs runID)).values ∧
      fh.history = sortHistoryRecords (logOf (s.runs runID)).history := by
  rw [fullHistory, Option.map_eq_some_iff] at h
  obtain ⟨r, hr, rfl⟩ := h
  rw [hr]
  exact ⟨rfl, rfl⟩

/-- After any calls, the history of a run serves the events accepted for it. -/
lemma fullHistory_serves (calls : List StoreCall) (runID : String) (fh : FullHistory)
    (h : (newInMemoryStateStore.exec calls).fullHistory runID = some fh) :
    fh.Serves (eventsOf runID calls) := by
  obtain ⟨hv, hh⟩ := fullHistory_eq _ runID fh h
  rw [logOf_exec] at hv hh
  refine ⟨?_, ?_, ?_, ?_⟩
  · rw [hv, ← map_valuesFrom]
    exact (sortReplay_perm _ _ _).map _
  · rw [hh, ← map_historyFrom]
    exact (sortReplay_perm _ _ _).map _
  · rw [hv]
    exact sortReplay_strict _ _ (valuesFrom_pairwise 0 _)
  · rw [hh]
    exact sortReplay_strict _ _ (historyFrom_pairwise 0 _).2

/-- A run without a history has had nothing accepted that a history would serve. -/
lemma nothing_accepted_of_unknown (calls : List StoreCall) (runID : String)
    (h : (newInMemoryStateStore.exec calls).fullHistory runID = none) :
    writesOf 1 (eventsOf runID calls) = [] ∧ entriesOf 1 (eventsOf runID calls) = [] := by
  have hlog := logOf_exec runID calls
  rw [fullHistory, Option.map_eq_none_iff] at h
  rw [h] at hlog
  have hv : valuesFrom 0 (eventsOf runID calls) = [] := (congrArg Log.values hlog).symm
  have hh : historyFrom 0 (eventsOf runID calls) = [] := (congrArg Log.history hlog).symm
  rw [← map_valuesFrom, ← map_historyFrom, hv, hh]
  exact ⟨rfl, rfl⟩

/-! ## Status -/

/-- The status the history shows for the record with an arrival number. -/
def InMemoryStateStore.statusOf (s : InMemoryStateStore) (runID : String) (seq : Nat) :
    Option ValueStatus :=
  (s.fullHistory runID).bind fun fh => (fh.values.find? fun r => r.seq = seq).map fun r => r.status

lemma statusOf_eq_some {calls : List StoreCall} {runID : String} {seq : Nat} {st : ValueStatus} :
    (newInMemoryStateStore.exec calls).statusOf runID seq = some st ↔
      ∃ r ∈ valuesFrom 0 (eventsOf runID calls), r.seq = seq ∧ r.status = st := by
  have hlog : (logOf ((newInMemoryStateStore.exec calls).runs runID)).values =
      valuesFrom 0 (eventsOf runID calls) := by rw [logOf_exec]
  rw [statusOf, fullHistory]
  cases hr : (newInMemoryStateStore.exec calls).runs runID with
  | none =>
    rw [hr] at hlog
    simp [← hlog, logOf]
  | some run =>
    rw [hr] at hlog
    -- arrival numbers are never given out twice
    have huniq : ∀ x ∈ run.values, ∀ y ∈ run.values, x.seq = y.seq → x = y := by
      rw [show run.values = _ from hlog]
      exact fun x hx y hy => eq_of_increasing (valuesFrom_pairwise 0 _) hx hy
    have hmem : ∀ r, r ∈ sortValueRecords run.values ↔ r ∈ run.values := fun r =>
      (sortReplay_perm _ _ _).mem_iff
    rw [← hlog]
    simp only [Option.map_some, Option.bind_some, Option.map_eq_some_iff, logOf_some]
    constructor
    · rintro ⟨r, hf, rfl⟩
      exact ⟨r, (hmem r).1 (mem_of_find?_eq_some hf), by simpa using find?_some hf, rfl⟩
    · rintro ⟨r, hr, rfl, rfl⟩
      obtain ⟨r', hf⟩ : ∃ r', (sortValueRecords run.values).find? (fun x => x.seq = r.seq) =
          some r' := by
        rw [← Option.isSome_iff_exists, find?_isSome]
        exact ⟨r, (hmem r).2 hr, by simp⟩
      have hr' := (hmem r').1 (mem_of_find?_eq_some hf)
      refine ⟨r', hf, ?_⟩
      rw [huniq r' hr' r hr (by simpa using find?_some hf)]

lemma settled_cases {es : List Event} (hes : ∀ e ∈ es, e.Settling) (task : String) :
    settled es task = .pending ∨ settled es task = .committed ∨ settled es task = .aborted := by
  induction es with
  | nil => exact .inl rfl
  | cons e es ih =>
    have ih' := ih fun e' h => hes e' (mem_cons_of_mem _ h)
    cases e with
    | value _ | history _ => exact ih'
    | flip f =>
      rw [settled]
      split
      · exact .inr (hes (.flip f) (by simp))
      · exact ih'

lemma valuesFrom_append {es es' : List Event} (hes : ∀ e ∈ es, e.Settling)
    (hes' : ∀ e ∈ es', e.Settling) :
    valuesFrom 0 (es ++ es') =
      (valuesFrom 0 es).map (ValueRecord.after es') ++ valuesFrom (arrivals es) es' := by
  have hall : ∀ e ∈ es ++ es', e.Settling := fun e h => (mem_append.1 h).elim (hes e) (hes' e)
  have h := Log.foldl_apply (es ++ es') hall ⟨[], [], 0⟩
  rw [foldl_append, Log.foldl_apply es hes, Log.foldl_apply es' hes'] at h
  simpa using (congrArg Log.values h).symm

/-- What a record may go through: nothing, or being settled while it is pending. -/
def ValueStatus.Becomes (st st' : ValueStatus) : Prop :=
  st' = st ∨ st = .pending ∧ (st' = .committed ∨ st' = .aborted)

/-- Later calls keep a record, and change its status only from pending. -/
lemma statusOf_append {xs : List StoreCall} (ys : List StoreCall) {runID : String} {seq : Nat}
    {st : ValueStatus}
    (h : (newInMemoryStateStore.exec xs).statusOf runID seq = some st) :
    ∃ st', (newInMemoryStateStore.exec (xs ++ ys)).statusOf runID seq = some st' ∧
      st.Becomes st' := by
  obtain ⟨r, hr, rfl, rfl⟩ := statusOf_eq_some.1 h
  have hx : ∀ e ∈ eventsOf runID xs, e.Settling := fun e => settling_of_mem_eventsOf
  have hy : ∀ e ∈ eventsOf runID ys, e.Settling := fun e => settling_of_mem_eventsOf
  have hmem : r.after (eventsOf runID ys) ∈ valuesFrom 0 (eventsOf runID (xs ++ ys)) := by
    rw [eventsOf_append, valuesFrom_append hx hy]
    exact mem_append_left _ (mem_map_of_mem hr)
  have hseq : (r.after (eventsOf runID ys)).seq = r.seq := by
    rw [ValueRecord.after]
    split <;> rfl
  refine ⟨_, statusOf_eq_some.2 ⟨_, hmem, hseq, rfl⟩, ?_⟩
  rw [ValueRecord.after]
  split
  case isTrue hp =>
    rcases settled_cases hy r.taskID with hs | hs
    · exact .inl (hs.trans hp.symm)
    · exact .inr ⟨hp, hs⟩
  case isFalse => exact .inl rfl

/-- A status that has changed once stays. -/
lemma ValueStatus.Becomes.settled {a b c : ValueStatus} (hab : a.Becomes b) (hbc : b.Becomes c)
    (hne : a ≠ b) : c = b := by
  rcases hab with rfl | ⟨-, hb⟩
  · exact absurd rfl hne
  · rcases hbc with hc | ⟨hb', -⟩
    · exact hc
    · rcases hb with hb | hb <;> simp [hb] at hb'

/-! ## Batches -/

namespace InMemoryStateStore

/-- The store after consecutive batches. -/
def writeBatches (s : InMemoryStateStore) (batches : List (List WriteOp)) : InMemoryStateStore :=
  batches.foldl (fun s ops => (s.writeBatch ops).2) s

/-- An accepted batch is the same as its operations in consecutive batches. -/
lemma writeBatch_flatten {batches : List (List WriteOp)}
    (h : ∀ op ∈ batches.flatten, op.Valid) (s : InMemoryStateStore) :
    s.writeBatch batches.flatten = (.ok (), s.writeBatches batches) := by
  rw [writeBatch_valid h]
  refine congrArg _ ?_
  induction batches generalizing s with
  | nil => rfl
  | cons ops batches ih =>
    have hops : ∀ op ∈ ops, op.Valid := fun op hop => h op (mem_append_left _ hop)
    have hrest : ∀ op ∈ batches.flatten, op.Valid := fun op hop => h op (mem_append_right _ hop)
    rw [flatten_cons, foldl_append, ih hrest, writeBatches, writeBatches,
      foldl_cons, writeBatch_valid hops]

/-- Batches on different runs commute. -/
lemma writeBatches_comm {xs ys : List WriteOp} (h : ∀ a ∈ xs, ∀ b ∈ ys, a.runID ≠ b.runID)
    (s : InMemoryStateStore) : s.writeBatches [xs, ys] = s.writeBatches [ys, xs] := by
  have hcall : ∀ (t : InMemoryStateStore) ops, (t.writeBatch ops).2 = t.call (.writeBatch ops) :=
    fun _ _ => rfl
  ext1
  funext runID
  show (((s.writeBatch xs).2.writeBatch ys).2).runs runID =
    (((s.writeBatch ys).2.writeBatch xs).2).runs runID
  simp only [hcall, call_runs]
  -- at most one of the two batches has anything to do with the run
  by_cases hx : ∃ a ∈ xs, a.runID = runID
  · obtain ⟨a, ha, rfl⟩ := hx
    have hy : ∀ o, callStep a.runID o (.writeBatch ys) = o := fun o => by
      rw [callStep, foldl_opStep_other fun b hb => Ne.symm (h a ha b hb), ite_self]
    rw [hy, hy]
  · have hx' : ∀ o, callStep runID o (.writeBatch xs) = o := fun o => by
      rw [callStep, foldl_opStep_other fun a ha hr => hx ⟨a, ha, hr⟩, ite_self]
    rw [hx', hx']

end InMemoryStateStore

/-! ## The laws of the history -/

/-- Over every sequence of calls: a run's history serves exactly the accepted writes and
entries in replay order; a record's status is settled at most once, and only from
pending; a batch with an invalid operation changes nothing; a batch of valid operations
is the same as its operations in consecutive batches; batches on different runs
commute. -/
theorem fullHistory_laws :
    (∀ calls runID fh, (newInMemoryStateStore.exec calls).fullHistory runID = some fh →
      fh.Serves (eventsOf runID calls)) ∧
    (∀ calls runID, (newInMemoryStateStore.exec calls).fullHistory runID = none →
      writesOf 1 (eventsOf runID calls) = [] ∧ entriesOf 1 (eventsOf runID calls) = []) ∧
    (∀ xs ys runID seq st, (newInMemoryStateStore.exec xs).statusOf runID seq = some st →
      ∃ st', (newInMemoryStateStore.exec (xs ++ ys)).statusOf runID seq = some st' ∧
        st.Becomes st' ∧
        (st ≠ st' → ∀ zs,
          (newInMemoryStateStore.exec (xs ++ ys ++ zs)).statusOf runID seq = some st')) ∧
    (∀ (s : InMemoryStateStore) ops, (∃ op ∈ ops, ¬ op.Valid) → (s.writeBatch ops).2 = s) ∧
    (∀ (s : InMemoryStateStore) batches, (∀ op ∈ batches.flatten, op.Valid) →
      (s.writeBatch batches.flatten).2 = s.writeBatches batches) ∧
    (∀ (s : InMemoryStateStore) xs ys, (∀ a ∈ xs, ∀ b ∈ ys, a.runID ≠ b.runID) →
      s.writeBatches [xs, ys] = s.writeBatches [ys, xs]) := by
  refine ⟨fullHistory_serves, ?_, ?_, ?_, ?_, ?_⟩
  · intro calls runID h
    exact nothing_accepted_of_unknown calls runID h
  · intro xs ys runID seq st h
    obtain ⟨st', h', hb⟩ := statusOf_append ys h
    refine ⟨st', h', hb, fun hne zs => ?_⟩
    obtain ⟨st'', h'', hb'⟩ := statusOf_append zs h'
    rw [h'', hb.settled hb' hne]
  · rintro s ops ⟨op, hop, hinv⟩
    obtain ⟨e, he⟩ := writeBatch_invalid (s := s) fun h => hinv (h op hop)
    rw [he]
  · intro s batches h
    rw [writeBatch_flatten h]
  · intro s xs ys h
    exact writeBatches_comm h s

/-- A write of one byte. -/
def sampleWrite : WriteOp where
  runID := "r"
  kind := .valueWrite
  valueWrite := some ⟨"t", "e", "f", [49], ⟨0, 0⟩⟩
  statusFlip := none
  historyEntry := none

/-- A write without its payload. -/
def emptyWrite : WriteOp := { sampleWrite with valueWrite := none }

/-- Cutting a refused batch is not the same as refusing it: the valid part goes through. -/
theorem refused_batch_cut :
    ((newInMemoryStateStore.writeBatch [[sampleWrite], [emptyWrite]].flatten).2.fullHistory
      "r") = none ∧
    ((newInMemoryStateStore.writeBatches [[sampleWrite], [emptyWrite]]).fullHistory "r").isSome ∧
    (newInMemoryStateStore.writeBatch [[sampleWrite], [emptyWrite]].flatten).2 ≠
      newInMemoryStateStore.writeBatches [[sampleWrite], [emptyWrite]] := by
  have hone :
      ((newInMemoryStateStore.writeBatch [[sampleWrite], [emptyWrite]].flatten).2.fullHistory
      "r") = none := by decide +kernel
  have hcut : ((newInMemoryStateStore.writeBatches
      [[sampleWrite], [emptyWrite]]).fullHistory "r").isSome := by decide +kernel
  refine ⟨hone, hcut, fun heq => ?_⟩
  rw [← heq, hone] at hcut
  cases hcut

/-- The write is committed. -/
def sampleFlip : WriteOp where
  runID := "r"
  kind := .statusFlip
  valueWrite := none
  statusFlip := some ⟨"t", .committed, ⟨1, 0⟩⟩
  historyEntry := none

/-- The laws at a batch that is refused, at one that is cut, at two runs, and at a write
that is accepted and then committed for good. -/
theorem fullHistory_laws_sample :
    (newInMemoryStateStore.writeBatch [sampleWrite, emptyWrite]).2 = newInMemoryStateStore ∧
    (newInMemoryStateStore.writeBatch [sampleWrite, sampleFlip]).2 =
      newInMemoryStateStore.writeBatches [[sampleWrite], [sampleFlip]] ∧
    newInMemoryStateStore.writeBatches [[sampleWrite], [{ sampleWrite with runID := "q" }]] =
      newInMemoryStateStore.writeBatches [[{ sampleWrite with runID := "q" }], [sampleWrite]] ∧
    (∃ fh,
      (newInMemoryStateStore.exec [.writeBatch [sampleWrite], .writeBatch [sampleFlip]]).fullHistory
        "r" = some fh ∧
      fh.Serves (eventsOf "r" [.writeBatch [sampleWrite], .writeBatch [sampleFlip]])) ∧
    (newInMemoryStateStore.exec [.writeBatch [sampleWrite]]).statusOf "r" 1 = some .pending ∧
    ∀ calls, (newInMemoryStateStore.exec
        ([.writeBatch [sampleWrite]] ++ [.writeBatch [sampleFlip]] ++ calls)).statusOf "r" 1 =
      some .committed := by
  obtain ⟨hserves, -, hstatus, hinvalid, hsplit, hcomm⟩ := fullHistory_laws
  have hpending : (newInMemoryStateStore.exec [.writeBatch [sampleWrite]]).statusOf "r" 1 =
      some .pending := by decide +kernel
  refine ⟨hinvalid _ _ ⟨emptyWrite, by simp, by decide⟩,
    hsplit _ [[sampleWrite], [sampleFlip]] (by decide), hcomm _ _ _ (by decide),
    ⟨_, rfl, hserves _ _ _ rfl⟩, hpending, ?_⟩
  obtain ⟨st, hst, -, hsettled⟩ := hstatus _ [.writeBatch [sampleFlip]] _ _ _ hpending
  have hcommitted : (newInMemoryStateStore.exec
      ([.writeBatch [sampleWrite]] ++ [.writeBatch [sampleFlip]])).statusOf "r" 1 =
        some .committed := by decide +kernel
  obtain rfl : st = .committed := Option.some.inj (hst.symm.trans hcommitted)
  exact hsettled (by decide)

end Blkit
