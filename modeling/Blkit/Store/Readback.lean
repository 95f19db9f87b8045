import Blkit.Store.Journal
import Blkit.Store.RunLog

/-!
# Reading a flat key space back

What a database that holds a journal returns for a run.  When no other run has records
under the keys of the run, the records come in the order of their unsigned timestamps,
equal timestamps as they arrived, and the flips that count are those of the run and
the task: reading is then a function of the run log.
-/

namespace Blkit

open List

/-! ## What is kept of a record -/

/-- The write with the timestamp its key shows. -/
def ValueWrite.kept (w : ValueWrite) : ValueWrite :=
  { w with timestamp := timeOfNanos w.timestamp.nanos }

/-- The entry as it is stored, with the timestamp its key shows. -/
def HistoryEntry.kept (h : HistoryEntry) : HistoryEntry :=
  { h with payload := h.stored, timestamp := timeOfNanos h.timestamp.nanos }

/-- The history with what is kept of its records. -/
def Served.kept (v : Served) : Served :=
  ⟨v.metadata, v.values.map fun q => (q.1.kept, q.2), v.history.map HistoryEntry.kept⟩

/-- The record that is read back. -/
def ValueRecord.kept (r : ValueRecord) : ValueRecord := ⟨r.toValueWrite.kept, r.status, r.seq⟩

/-- The record that is read back. -/
def HistoryRecord.kept (r : HistoryRecord) : HistoryRecord := ⟨r.toHistoryEntry.kept, r.seq⟩

/-- The status is one of the three that can be read back. -/
def ValueStatus.Named (st : ValueStatus) : Prop := parseValueStatus st.string = .ok st

variable {st : ValueStatus}

lemma ValueStatus.Named.string_eq (h : st.Named) (st' : ValueStatus) (h' : st'.Named) :
    st.string = st'.string ↔ st = st' := by
  refine ⟨fun hst => ?_, congrArg _⟩
  rw [Named, hst] at h
  exact Except.ok.inj (h.symm.trans h')

lemma FieldValues.putRec_toRec (h : st.Named) (vs : FieldValues)
    (w : ValueWrite) (n : Nat) : vs.putRec (w.toRec st) = vs.put ⟨w, st, n⟩ := by
  have hstatus : (w.toRec st).status ≠ ValueStatus.committed.string ↔ st ≠ .committed :=
    not_congr (h.string_eq .committed rfl)
  rw [FieldValues.putRec]
  by_cases hc : st ≠ .committed
  · rw [if_pos (hstatus.2 hc)]
    exact (if_pos hc).symm
  · rw [if_neg (mt hstatus.1 hc)]
    exact (if_neg hc).symm

lemma ValueRec.read_toRec (h : st.Named) (w : ValueWrite) (n : Nat) :
    (w.toRec st).read (w.timestamp.nanos, n) = .ok (ValueRecord.kept ⟨w, st, n⟩) := by
  have hst : parseValueStatus (w.toRec st).status = .ok st := h
  rw [ValueRec.read, hst]
  rfl

variable {f : StatusFlip}

lemma Event.Settling.named (h : (Event.flip f).Settling) : f.newStatus.Named := by
  rcases h with h | h <;> rw [h] <;> rfl

lemma Event.Settling.named_settle (h : (Event.flip f).Settling) {r : ValueRecord}
    (hr : r.status.Named) : (f.settle r).status.Named := by
  rw [StatusFlip.settle]
  split
  · exact h.named
  · exact hr

/-- The next arrival number after an event. -/
def Event.next (n : Nat) : Event → Nat
  | .flip _ => n
  | _ => n + 1

lemma arrivalsOf_cons {op : WriteOp} {ops : List WriteOp} {e : Event} {n : Nat}
    (he : op.event? = some e) : n + arrivalsOf (op :: ops) = e.next n + arrivalsOf ops := by
  rw [arrivalsOf, filterMap_cons_some he]
  cases e with
  | flip f => rfl
  | value w | history h => exact (Nat.succ_add_eq_add_succ n _).symm

/-- What the encoder says to the payload of an event. -/
def Event.encode (marshal : List UInt8 → Except String Unit) : Event → Except String Unit
  | .value w => marshal w.value
  | .flip _ => .ok ()
  | .history h => marshal h.stored

namespace Journal

open Keyed

variable {J : Journal} {c : Option Nat} {db : Database} {n : Nat} {runID : String}
  {marshal : List UInt8 → Except String Unit}
  {iter : Database → List UInt8 → List (List UInt8 × Stored)}

/-! ## Events -/

/-- An event arrives, `n` being the next arrival number. -/
def apply (J : Journal) (n : Nat) (runID : String) : Event → Journal
  | .value w => J.addValue runID w n
  | .flip f => J.flip runID f
  | .history h => J.addHistory runID h n

lemma apply_numbered (hn : J.Numbered n) (runID : String) (e : Event) :
    (J.apply n runID e).Numbered (e.next n) := by
  cases e with
  | value w => exact hn.addValue w
  | flip f => exact hn.settle _ _
  | history h => exact hn.addHistory h

/-- The statuses of all records can be read back. -/
def Named (J : Journal) : Prop := ∀ q ∈ J.values, q.2.status.Named

lemma Named.apply (h : J.Named) {e : Event} (he : e.Settling) : (J.apply n runID e).Named := by
  cases e with
  | value w => exact forall_mem_concat.2 ⟨h, rfl⟩
  | flip f =>
    intro q' hq'
    obtain ⟨q, hq, rfl⟩ := mem_settle.1 hq'
    split
    · exact he.named
    · exact h q hq
  | history e => exact h

/-- An event whose payload can be encoded is applied: no index entry dangles. -/
lemma Represents.applyEvent (h : J.Represents c db) (hn : J.Numbered n) {e : Event}
    (he : e.Settling) (hlt : e.next n ≤ 2 ^ 64)
    (hiter : ∀ db p, iter db p = db.scan fun k => p <+: k) (henc : e.encode marshal = .ok ()) :
    ∃ db', applyEvent marshal iter db n runID e = .ok db' ∧
      (J.apply n runID e).Represents c db' := by
  cases e with
  | value w =>
    refine ⟨_, ?_, h.addValue hn hlt w⟩
    have henc : marshal w.value = .ok () := henc
    simp only [Keyed.applyEvent, applyValueWrite, henc]
  | history e =>
    refine ⟨_, ?_, h.addHistory hn hlt e⟩
    have henc : marshal e.stored = .ok () := henc
    simp only [Keyed.applyEvent, applyHistoryEntry, henc]
  | flip f =>
    rw [Keyed.applyEvent, applyStatusFlip, hiter]
    exact flip_represents he.ne_pending h hn hlt

/-- An event fails when its payload cannot be encoded. -/
lemma applyEvent_error {e : Event} {msg : String} (henc : e.encode marshal = .error msg) :
    applyEvent marshal iter db n runID e = .error ("value write: encode: " ++ msg) ∨
      applyEvent marshal iter db n runID e = .error ("history entry: encode: " ++ msg) := by
  cases e with
  | value w =>
    have henc : marshal w.value = .error msg := henc
    exact .inl (by simp only [applyEvent, applyValueWrite, henc])
  | history e =>
    have henc : marshal e.stored = .error msg := henc
    exact .inr (by simp only [applyEvent, applyHistoryEntry, henc])
  | flip f => cases henc

/-! ## Batches -/

/-- The operations of a batch arrive, `n` being the next arrival number. -/
def applyOps (J : Journal) (n : Nat) : List WriteOp → Journal
  | [] => J
  | op :: ops =>
    match op.event? with
    | none => J.applyOps n ops
    | some e => (J.apply n op.runID e).applyOps (e.next n) ops

variable {op : WriteOp} {ops : List WriteOp} {e : Event}

lemma applyOps_cons (he : op.event? = some e) :
    J.applyOps n (op :: ops) = (J.apply n op.runID e).applyOps (e.next n) ops := by
  rw [applyOps, he]

lemma applyOps_numbered (hn : J.Numbered n) : (J.applyOps n ops).Numbered (n + arrivalsOf ops) := by
  induction ops generalizing J n with
  | nil => exact hn
  | cons op ops ih =>
    rw [applyOps]
    cases he : op.event? with
    | none => simpa [arrivalsOf, he] using ih hn
    | some e =>
      rw [arrivalsOf_cons he]
      exact ih (apply_numbered hn op.runID e)

lemma Named.applyOps (h : J.Named) (hops : ∀ op ∈ ops, op.Valid) : (J.applyOps n ops).Named := by
  induction ops generalizing J n with
  | nil => exact h
  | cons op ops ih =>
    rw [forall_mem_cons] at hops
    obtain ⟨e, he, hset⟩ := hops.1.event
    rw [applyOps_cons he]
    exact ih (h.apply hset) hops.2

/-- The arrival numbers come from a counter: the next record gets the counter and
`off`, and the counter goes up by one. -/
def Draws (draw : Nat → Nat × Nat) (off : Nat) : Prop :=
  ∀ n, n + off < 2 ^ 64 → draw n = (n + off, n + 1)

/-- A batch that is applied is applied to the journal.  A batch fails only for a payload
that cannot be encoded, and has then drawn no more numbers than it has records. -/
lemma Represents.applyOps {draw : Nat → Nat × Nat} {off : Nat} (hdraw : Draws draw off)
    (hiter : ∀ db p, iter db p = db.scan fun k => p <+: k) (hops : ∀ op ∈ ops, op.Valid)
    (h : J.Represents c db) (hn : J.Numbered (n + off))
    (hfit : n + arrivalsOf ops + off ≤ 2 ^ 64) :
    (∃ db', Keyed.applyOps marshal iter draw db n ops = (.ok db', n + arrivalsOf ops) ∧
      (J.applyOps (n + off) ops).Represents c db') ∨
    ∃ msg n', Keyed.applyOps marshal iter draw db n ops = (.error msg, n') ∧ n ≤ n' ∧
      n' ≤ n + arrivalsOf ops ∧
      ∃ op ∈ ops, ∃ e, op.event? = some e ∧ e.encode marshal ≠ .ok () := by
  induction ops generalizing J db n with
  | nil => exact .inl ⟨db, rfl, h⟩
  | cons op ops ih =>
    rw [forall_mem_cons] at hops
    obtain ⟨e, he, hset⟩ := hops.1.event
    have hcount : n + arrivalsOf (op :: ops) = e.next n + arrivalsOf ops := arrivalsOf_cons he
    rw [hcount] at hfit ⊢
    have hoff : e.next (n + off) = e.next n + off := by
      cases e with
      | flip f => rfl
      | value w | history h => exact Nat.add_right_comm n off 1
    have hone : applyOp marshal iter draw db n op =
        (Keyed.applyEvent marshal iter db (n + off) op.runID e, e.next n) := by
      rw [applyOp, he]
      cases e with
      | flip f => rfl
      | value w | history h =>
        simp only [hdraw n (by simp only [Event.next] at hfit; omega), Event.next]
    have hle : n ≤ e.next n := by
      cases e with
      | flip f => exact le_rfl
      | value _ | history _ => exact Nat.le_succ n
    rw [Keyed.applyOps, hone, applyOps_cons he, hoff]
    cases henc : e.encode marshal with
    | error msg =>
      have hbad : ∃ op' ∈ op :: ops, ∃ e, op'.event? = some e ∧ e.encode marshal ≠ .ok () :=
        ⟨op, mem_cons_self, e, he, henc ▸ nofun⟩
      refine .inr ?_
      rcases applyEvent_error henc with herr | herr <;> rw [herr] <;>
        exact ⟨_, _, rfl, hle, Nat.le_add_right _ _, hbad⟩
    | ok u =>
      obtain ⟨db', hrun, hdb'⟩ := h.applyEvent hn hset (by omega) hiter henc
      have hn' := apply_numbered hn op.runID e
      rw [hoff] at hn'
      rw [hrun]
      rcases ih hops.2 hdb' hn' hfit with hok | ⟨msg, n', hrest, hlo, hhi, op', hop', hbad⟩
      · exact .inl hok
      · exact .inr ⟨msg, n', hrest, hle.trans hlo, hhi, op', mem_cons_of_mem _ hop', hbad⟩

/-! ## The log of a run -/

/-- What has arrived for a run. -/
def runLog (J : Journal) (runID : String) : RunLog where
  metadata := J.metas runID
  values := (J.values.filter fun q => q.1 = runID).map fun q => q.2.bare
  history := (J.history.filter fun q => q.1 = runID).map fun q => q.2.toHistoryEntry

lemma runLog_addMeta (m : RunMetadata) : (J.addMeta m).runLog runID =
      if m.runID = runID then (J.runLog runID).step (.save m) else J.runLog runID := by
  rw [runLog, metas_addMeta]
  by_cases hr : m.runID = runID
  · rw [if_pos hr.symm, if_pos hr]
    rfl
  · rw [if_neg (Ne.symm hr), if_neg hr]
    rfl

/-- A flip hits the records of its run and task only. -/
def Exact (J : Journal) (runID : String) (f : StatusFlip) : Prop :=
  ∀ q ∈ J.values, hits runID f.taskID q = true ↔ runID = q.1 ∧ f.taskID = q.2.taskID

variable {runID' : String} {f : StatusFlip}

lemma filter_flip (h : J.Exact runID' f) : ((J.flip runID' f).values.filter fun q => q.1 = runID) =
      (J.values.filter fun q => q.1 = runID).map fun q =>
        if runID' = runID then (q.1, f.settle q.2) else q := by
  have hrun : ((fun q : String × ValueRecord => decide (q.1 = runID)) ∘ fun q =>
      if decide (q.2.status = .pending ∧ hits runID' f.taskID q = true) = true then
        (q.1, { q.2 with status := f.newStatus }) else q) = fun q => decide (q.1 = runID) := by
    funext q
    rw [Function.comp_apply]
    split <;> rfl
  rw [flip, settle, filter_map, hrun]
  refine map_congr_left fun q hq => ?_
  obtain ⟨hq, hr⟩ := mem_filter.1 hq
  have hr : q.1 = runID := of_decide_eq_true hr
  by_cases hhit : q.2.status = .pending ∧ hits runID' f.taskID q = true
  · obtain ⟨hr', ht⟩ := (h q hq).1 hhit.2
    rw [if_pos (decide_eq_true hhit), if_pos (hr'.trans hr), StatusFlip.settle,
      if_pos ⟨ht.symm, hhit.1⟩]
  · rw [if_neg (by simpa using hhit)]
    split
    · rename_i hr'
      rw [StatusFlip.settle, if_neg]
      rintro ⟨ht, hp⟩
      exact hhit ⟨hp, (h q hq).2 ⟨hr'.trans hr.symm, ht.symm⟩⟩
    · rfl

lemma runLog_flip (h : J.Exact runID' f) : (J.flip runID' f).runLog runID =
      if runID' = runID then (J.runLog runID).apply (.flip f) else J.runLog runID := by
  rw [runLog, filter_flip h]
  by_cases hr' : runID' = runID
  · simp only [hr', if_true, map_map]
    rw [RunLog.apply, runLog, map_map]
    congr 1
    exact map_congr_left fun q _ => f.bare_settle q.2
  · simp only [hr', if_false, map_id']
    rfl

lemma runLog_apply {e : Event} (h : ∀ f, e = .flip f → J.Exact runID' f) :
    (J.apply n runID' e).runLog runID =
      if runID' = runID then (J.runLog runID).apply e else J.runLog runID := by
  cases e with
  | value w =>
    rw [apply, addValue, runLog, filter_append]
    by_cases hr : runID' = runID
    · simp [hr, RunLog.apply, runLog, ValueRecord.bare]
    · simp [hr, runLog]
  | history e =>
    rw [apply, addHistory, runLog, filter_append]
    by_cases hr : runID' = runID
    · simp [hr, RunLog.apply, runLog]
    · simp [hr, runLog]
  | flip f => exact runLog_flip (h f rfl)

/-! ## Reading -/

/-- The records under the keys of the run are the run's. -/
structure Own (J : Journal) (runID : String) : Prop where
  values : ∀ q ∈ J.values, runStem 118 runID <+: valueKey q → q.1 = runID
  history : ∀ q ∈ J.history, runStem 104 runID <+: historyKey q → q.1 = runID

lemma runStem_prefix (kind : UInt8) (runID : String) (ts : Int) (seq : Nat) :
    runStem kind runID <+: eventKey kind runID ts seq := by
  refine ⟨eventSuffix ts seq, ?_⟩
  simp [runStem, eventKey]

/-- The values of the run, as a reader finds them. -/
lemma scan_values (h : J.Represents c db) (hn : J.Numbered n) (hlt : n ≤ 2 ^ 64)
    (hown : J.Own runID) :
    db.scan (fun k => runStem 118 runID <+: k) =
      (stableSort (fun q => q.2.timestamp.unsigned) (J.values.filter fun q => q.1 = runID)).map
        fun q => (valueKey q, .value (q.2.toValueWrite.toRec q.2.status)) := by
  refine KeyStore.scan_eq_stableSort (fun q => q.2.seq) (hn.values.filter _) ?_ ?_
  · intro a ha b hb hab
    obtain ⟨ha, hra⟩ := mem_filter.1 ha
    obtain ⟨hb, hrb⟩ := mem_filter.1 hb
    rw [valueKey, valueKey, of_decide_eq_true hra, of_decide_eq_true hrb,
      eventKey_lt_iff (seq_lt hn hlt ha) (seq_lt hn hlt hb)]
    exact placeBy_lt.1 hab
  · intro k x
    constructor
    · rintro ⟨hget, t, rfl⟩
      obtain ⟨q, hq, hk, rfl⟩ := ((h _ x).1 hget).inv
      have hr := hown.values q hq ⟨t, hk⟩
      exact ⟨q, mem_filter.2 ⟨hq, decide_eq_true hr⟩, hk.symm, rfl⟩
    · rintro ⟨q, hq, rfl, rfl⟩
      obtain ⟨hq, hr⟩ := mem_filter.1 hq
      refine ⟨(h _ _).2 (.value hq), ?_⟩
      rw [valueKey, of_decide_eq_true hr]
      exact runStem_prefix ..

/-- The history of the run, as a reader finds it. -/
lemma scan_history (h : J.Represents c db) (hn : J.Numbered n) (hlt : n ≤ 2 ^ 64)
    (hown : J.Own runID) :
    db.scan (fun k => runStem 104 runID <+: k) =
      (stableSort (fun q => q.2.timestamp.unsigned) (J.history.filter fun q => q.1 = runID)).map
        fun q => (historyKey q, .history q.2.toHistoryEntry.toRec) := by
  refine KeyStore.scan_eq_stableSort (fun q => q.2.seq) (hn.history.filter _) ?_ ?_
  · intro a ha b hb hab
    obtain ⟨ha, hra⟩ := mem_filter.1 ha
    obtain ⟨hb, hrb⟩ := mem_filter.1 hb
    rw [historyKey, historyKey, of_decide_eq_true hra, of_decide_eq_true hrb,
      eventKey_lt_iff ((hn.history_lt a ha).trans_le hlt) ((hn.history_lt b hb).trans_le hlt)]
    exact placeBy_lt.1 hab
  · intro k x
    constructor
    · rintro ⟨hget, t, rfl⟩
      obtain ⟨q, hq, hk, rfl⟩ := ((h _ x).1 hget).inv
      have hr := hown.history q hq ⟨t, hk⟩
      exact ⟨q, mem_filter.2 ⟨hq, decide_eq_true hr⟩, hk.symm, rfl⟩
    · rintro ⟨q, hq, rfl, rfl⟩
      obtain ⟨hq, hr⟩ := mem_filter.1 hq
      refine ⟨(h _ _).2 (.history hq), ?_⟩
      rw [historyKey, of_decide_eq_true hr]
      exact runStem_prefix ..

lemma get_metaKey (h : J.Represents c db) (runID : String) :
    db.get (metaKey runID) = (J.metas runID).map .metadata := by
  ext x
  rw [h (metaKey runID) x, Option.map_eq_some_iff]
  constructor
  · intro hh
    obtain ⟨runID', m, hm, hk, rfl⟩ := hh.inv
    exact ⟨m, metaKey_inj hk ▸ hm, rfl⟩
  · rintro ⟨m, hm, rfl⟩
    exact .metadata hm

section Reads

variable (h : J.Represents c db) (hn : J.Numbered n) (hlt : n ≤ 2 ^ 64) (hnamed : J.Named)
  (hown : J.Own runID) (hiter : ∀ db p, iter db p = db.scan fun k => p <+: k)

include h hn hlt hown hiter

lemma runMeta_eq :
    runMeta iter db runID = .ok ((J.metas runID).getD (.blank runID), (J.runLog runID).stored) := by
  have hempty {α β : Type} (f : α → β) (time : α → Nat) (l : List α) :
      ((stableSort time l).map f).isEmpty = l.isEmpty := by
    rw [List.isEmpty_map, Bool.eq_iff_iff, List.isEmpty_iff, List.isEmpty_iff]
    exact ⟨fun hs => List.Perm.nil_eq (hs ▸ stableSort_perm time l) ▸ rfl,
      fun hl => by rw [hl]; rfl⟩
  rw [runMeta, get_metaKey h]
  cases hm : J.metas runID with
  | some m => simp [RunLog.stored, runLog, hm]
  | none =>
    simp only [Option.map_none, Option.getD_none, any_cons, any_nil, hiter,
      scan_values h hn hlt hown, scan_history h hn hlt hown, hempty, RunLog.stored, runLog, hm,
      isEmpty_map, Option.isSome_none, Bool.false_or, Bool.or_false]

include hnamed

lemma fullHistory_eq : fullHistory iter db runID = .ok (if (J.runLog runID).stored then
      some ⟨(J.metas runID).getD (.blank runID),
        (stableSort (fun q => q.2.timestamp.unsigned) (J.values.filter fun q => q.1 = runID)).map
          fun q => q.2.kept,
        (stableSort (fun q => q.2.timestamp.unsigned) (J.history.filter fun q => q.1 = runID)).map
          fun q => q.2.kept⟩
      else none) := by
  rw [fullHistory, runMeta_eq h hn hlt hown hiter, Fallible.ok_bind]
  cases (J.runLog runID).stored with
  | false => rfl
  | true =>
    have hvalues : (iter db (runStem 118 runID)).mapM readValue = .ok
        ((stableSort (fun q => q.2.timestamp.unsigned) (J.values.filter fun q => q.1 = runID)).map
          fun q => q.2.kept) := by
      rw [hiter, scan_values h hn hlt hown]
      refine Fallible.mapM_map_ok fun q hq => ?_
      have hq := (mem_filter.1 (mem_stableSort.1 hq)).1
      rw [readValue, valueKey, splitEventKey_eventKey (seq_lt hn hlt hq)]
      exact ValueRec.read_toRec (hnamed q hq) _ _
    have hhistory : (iter db (runStem 104 runID)).mapM readHistory = .ok
        ((stableSort (fun q => q.2.timestamp.unsigned) (J.history.filter fun q => q.1 = runID)).map
          fun q => q.2.kept) := by
      rw [hiter, scan_history h hn hlt hown]
      refine Fallible.mapM_map_ok fun q hq => ?_
      have hq := hn.history_lt q (mem_filter.1 (mem_stableSort.1 hq)).1
      simp only [readHistory, historyKey, splitEventKey_eventKey (hq.trans_le hlt)]
      rfl
    simp only [if_true, hvalues, hhistory, Fallible.ok_bind]
    rfl

/-- The full history is that of the run log, sorted by unsigned time. -/
lemma fullHistory_served : ∃ o, fullHistory iter db runID = .ok o ∧ o.map FullHistory.served =
      if (J.runLog runID).stored then some ((J.runLog runID).serve GoTime.unsigned runID).kept
      else none := by
  refine ⟨_, fullHistory_eq h hn hlt hnamed hown hiter, ?_⟩
  cases (J.runLog runID).stored with
  | false => rfl
  | true =>
    simp only [if_true, Option.map_some, FullHistory.served, RunLog.serve, Served.kept,
      RunLog.replayValues, RunLog.replayHistory, runLog, map_map]
    rw [← map_stableSort (fun q : ValueWrite × ValueStatus => q.1.timestamp.unsigned)
        (fun q : String × ValueRecord => q.2.bare),
      ← map_stableSort (fun e : HistoryEntry => e.timestamp.unsigned)
        (fun q : String × HistoryRecord => q.2.toHistoryEntry), map_map, map_map]
    rfl

/-- The current version is that of the run log, replayed by unsigned time. -/
lemma currentVersion_eq : currentVersion iter db runID = .ok (if (J.runLog runID).stored then
      some ⟨(J.metas runID).getD (.blank runID), (J.runLog runID).current GoTime.unsigned⟩
      else none) := by
  rw [currentVersion, runMeta_eq h hn hlt hown hiter, Fallible.ok_bind]
  cases (J.runLog runID).stored with
  | false => rfl
  | true =>
    have hfold : (iter db (runStem 118 runID)).foldlM (fun vs e => foldValue vs e.2)
        (fun _ => none) =
        .ok ((J.runLog runID).current GoTime.unsigned) := by
      rw [hiter, scan_values h hn hlt hown, RunLog.current, RunLog.replayValues, runLog,
        ← map_stableSort (fun q : ValueWrite × ValueStatus => q.1.timestamp.unsigned)
          (fun q : String × ValueRecord => q.2.bare), foldl_map]
      refine Fallible.foldlM_map_ok (fun q hq vs => ?_) _
      have hst := hnamed q (mem_filter.1 (mem_stableSort.1 hq)).1
      rw [foldValue, FieldValues.putRec_toRec hst]
      rfl
    simp only [if_true, hfold, Fallible.ok_bind]
    rfl

end Reads

end Journal

end Blkit
