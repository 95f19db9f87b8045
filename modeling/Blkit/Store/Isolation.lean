import Blkit.Store.Pebble

/-!
# Runs and tasks in the Pebble store

Two sequences of accepted calls that agree on the operations of a run should be read
alike for it, and a flip should change records of its run and task only.  Keys are
built by joining ids with `|`, which ids may contain: the stem `v|a|` of run `a` also
covers the keys of run `a|b`.

The ids in use are a set of pairs of a run and a task.  Isolation holds for all calls
with these ids exactly when no run id is another one, a `|` and more, and no task id
of a run is another task id of the run, a `|` and more.
-/

namespace Blkit

open List

/-! ## Ids in use -/

/-- No run id extends another by the separator and more, and neither does a task id
extend another of the same run. -/
structure Separate (U : Set (String × String)) : Prop where
  runs : ∀ p ∈ U, ∀ q ∈ U, ¬ Extends bar (bytesOf p.1) (bytesOf q.1)
  tasks : ∀ p ∈ U, ∀ q ∈ U, p.1 = q.1 → ¬ Extends bar (bytesOf p.2) (bytesOf q.2)

namespace Journal

variable {J : Journal} {U : Set (String × String)} {n : Nat} {runID : String}

/-- The ids of the records are in use. -/
structure Inside (J : Journal) (U : Set (String × String)) : Prop where
  values : ∀ q ∈ J.values, (q.1, q.2.taskID) ∈ U
  history : ∀ q ∈ J.history, ∃ t, (q.1, t) ∈ U

lemma Inside.own (h : J.Inside U) (hU : Separate U) {p : String × String} (hp : p ∈ U) :
    J.Own p.1 where
  values q hq hstem :=
    eq_of_runStem ⟨hU.runs _ hp _ (h.values q hq), hU.runs _ (h.values q hq) _ hp⟩ hstem
  history q hq hstem := by
    obtain ⟨t, ht⟩ := h.history q hq
    exact eq_of_runStem ⟨hU.runs _ hp _ ht, hU.runs _ ht _ hp⟩ hstem

lemma Inside.exact (h : J.Inside U) (hU : Separate U) {f : StatusFlip}
    (hf : (runID, f.taskID) ∈ U) : J.Exact runID f := by
  intro q hq
  have hq := h.values q hq
  refine hits_iff ⟨hU.runs _ hf _ hq, hU.runs _ hq _ hf⟩ fun hr => ?_
  exact ⟨hU.tasks _ hf _ hq hr, hU.tasks _ hq _ hf hr.symm⟩

lemma Inside.apply (h : J.Inside U) {op : WriteOp} {e : Event} (he : op.event? = some e)
    (hop : op.Within U) : (J.apply n op.runID e).Inside U := by
  rw [WriteOp.Within, he] at hop
  cases e with
  | value w =>
    refine ⟨?_, h.history⟩
    exact forall_mem_concat.2 ⟨h.values, hop⟩
  | flip f =>
    refine ⟨fun q' hq' => ?_, h.history⟩
    obtain ⟨q, hq, rfl⟩ := mem_settle.1 hq'
    split <;> exact h.values q hq
  | history e =>
    refine ⟨h.values, ?_⟩
    exact forall_mem_concat.2 ⟨h.history, hop⟩

variable {ops : List WriteOp}

lemma Inside.applyOps (hops : ∀ op ∈ ops, op.Valid)
    (hwithin : ∀ op ∈ ops, op.Within U) (h : J.Inside U) : (J.applyOps n ops).Inside U := by
  induction ops generalizing J n with
  | nil => exact h
  | cons op ops ih =>
    rw [forall_mem_cons] at hops hwithin
    obtain ⟨e, he, -⟩ := hops.1.event
    rw [applyOps_cons he]
    exact ih hops.2 hwithin.2 (h.apply he hwithin.1)

/-- With ids that are told apart, a batch does to each run what its operations on the
run say. -/
lemma runLog_applyOps (hU : Separate U) (hops : ∀ op ∈ ops, op.Valid)
    (hwithin : ∀ op ∈ ops, op.Within U) (h : J.Inside U) :
    (J.applyOps n ops).runLog runID =
      ((ops.filter fun op => op.runID = runID).filterMap WriteOp.event?).foldl RunLog.apply
        (J.runLog runID) := by
  induction ops generalizing J n with
  | nil => rfl
  | cons op ops ih =>
    rw [forall_mem_cons] at hops hwithin
    obtain ⟨e, he, -⟩ := hops.1.event
    have hexact : ∀ f, e = .flip f → J.Exact op.runID f := by
      rintro f rfl
      have hf := hwithin.1
      rw [WriteOp.Within, he] at hf
      exact h.exact hU hf
    rw [applyOps_cons he, ih hops.2 hwithin.2 (h.apply he hwithin.1), runLog_apply hexact]
    by_cases hr : op.runID = runID
    · simp [hr, he]
    · simp [hr]

end Journal

namespace PebbleStore

variable {enc : Encoder} {U : Set (String × String)} {s s' : PebbleStore} {calls : List StoreCall}

/-- The store after a call that is accepted. -/
def accept (enc : Encoder) (s : PebbleStore) : StoreCall → Except String PebbleStore
  | .save m =>
    match s.save enc m with
    | (.ok (), s) => .ok s
    | (.error e, _) => .error e
  | .writeBatch ops =>
    match s.writeBatch enc ops with
    | (.ok (), s) => .ok s
    | (.error e, _) => .error e

/-- The store after calls that are all accepted. -/
def acceptAll (enc : Encoder) (calls : List StoreCall) : Except String PebbleStore :=
  calls.foldlM (accept enc) (new .empty)

/-- The store holds what has arrived for each run in use. -/
def Tracks (U : Set (String × String)) (calls : List StoreCall) (s : PebbleStore) (J : Journal) :
    Prop :=
  (∃ c, J.Represents c s.db) ∧ J.Numbered (s.seq + 1) ∧ J.Named ∧ J.Inside U ∧
    (∀ runID, J.runLog runID = runLog runID calls) ∧ s.seq ≤ arrivalsIn calls

variable {m : RunMetadata}

lemma accept_save (h : s.accept enc (.save m) = .ok s') :
    m.runID ≠ "" ∧ s' = { s with db := s.db.set (metaKey m.runID) (.metadata m) } := by
  rw [accept, save] at h
  by_cases hm : m.runID = ""
  · rw [if_pos hm] at h
    cases h
  · rw [if_neg hm] at h
    cases henc : enc.metadata m with
    | error e => simp [henc] at h
    | ok u =>
      simp only [henc] at h
      exact ⟨hm, (Except.ok.inj h).symm⟩

variable {ops : List WriteOp}

lemma accept_writeBatch (h : s.accept enc (.writeBatch ops) = .ok s') :
    (∀ op ∈ ops, op.Valid) ∧ ∃ b n, s.applyOps enc ops = (.ok b, n) ∧
      s' = ⟨b.set Journal.seqKey (.number n), n⟩ := by
  rw [accept, writeBatch] at h
  cases hv : ops.forM validateWriteOp with
  | error e => simp [hv] at h
  | ok u =>
    simp only [hv] at h
    rcases hrun : s.applyOps enc ops with ⟨e | b, n⟩
    · simp [hrun] at h
    · simp only [hrun] at h
      exact ⟨forM_validateWriteOp.1 hv, b, n, rfl, (Except.ok.inj h).symm⟩

variable {J : Journal}

lemma Tracks.save (h : Tracks U calls s J)
    (hacc : s.accept enc (.save m) = .ok s') : Tracks U (calls ++ [.save m]) s' (J.addMeta m) := by
  obtain ⟨⟨c, hrep⟩, hn, hnamed, hin, hlog, hseq⟩ := h
  obtain ⟨hm, rfl⟩ := accept_save hacc
  refine ⟨⟨c, hrep.addMeta m⟩, { hn with }, hnamed, { hin with }, fun runID => ?_, ?_⟩
  · rw [runLog_append_singleton, Journal.runLog_addMeta, hlog, StoreCall.opsOn]
    by_cases hr : m.runID = runID
    · rw [if_pos hr, if_pos ⟨hr, hm⟩]
      rfl
    · rw [if_neg hr, if_neg fun h => hr h.1]
      rfl
  · rw [arrivalsIn_append_singleton]
    exact hseq

lemma Tracks.writeBatch (hU : Separate U) (h : Tracks U calls s J)
    (hwithin : ∀ op ∈ ops, op.Within U) (hfit : arrivalsIn (calls ++ [.writeBatch ops]) < 2 ^ 64)
    (hacc : s.accept enc (.writeBatch ops) = .ok s') :
    Tracks U (calls ++ [.writeBatch ops]) s' (J.applyOps (s.seq + 1) ops) := by
  obtain ⟨⟨c, hrep⟩, hn, hnamed, hin, hlog, hseq⟩ := h
  obtain ⟨hops, b, n, hrun, rfl⟩ := accept_writeBatch hacc
  have hcount : arrivalsIn (calls ++ [.writeBatch ops]) = arrivalsIn calls + arrivalsOf ops :=
    arrivalsIn_append_singleton calls _
  rw [hcount] at hfit
  rcases hrep.applyOps draws iter_eq hops hn (by omega) with ⟨b', hrun', hb⟩ | ⟨msg, n', herr, -⟩
  · obtain ⟨hbb, hnn⟩ := Prod.mk.inj (hrun.symm.trans hrun')
    obtain rfl := Except.ok.inj hbb
    refine ⟨⟨_, hb.setCounter n⟩, ?_, hnamed.applyOps hops,
      hin.applyOps hops hwithin, fun runID => ?_, ?_⟩
    · have hn' : (J.applyOps (s.seq + 1) ops).Numbered _ := Journal.applyOps_numbered hn
      rwa [Nat.add_right_comm, ← hnn] at hn'
    · rw [Journal.runLog_applyOps hU hops hwithin hin, hlog, runLog_append_singleton,
        StoreCall.opsOn, if_pos hops, foldl_map]
      rfl
    · rw [hcount, hnn]
      exact Nat.add_le_add_right hseq _
  · cases hrun.symm.trans herr

/-- What the store holds after accepted calls with ids that are told apart. -/
lemma tracks_acceptAll (hU : Separate U) (hwithin : ∀ c ∈ calls, c.Within U)
    (hfit : arrivalsIn calls < 2 ^ 64) (hacc : acceptAll enc calls = .ok s) :
    ∃ J, Tracks U calls s J := by
  induction calls using reverseRecOn generalizing s with
  | nil =>
    obtain rfl := Except.ok.inj hacc
    exact ⟨.empty, ⟨none, Journal.represents_empty⟩, Journal.numbered_empty _, nofun,
      ⟨nofun, nofun⟩, fun _ => rfl, le_rfl⟩
  | append_singleton calls c ih =>
    rw [forall_mem_concat] at hwithin
    obtain ⟨s₀, hs₀, hacc⟩ := Fallible.foldlM_concat_eq_ok.1 hacc
    have hcount := arrivalsIn_append_singleton calls c
    obtain ⟨J, hJ⟩ := ih hwithin.1 (by omega) hs₀
    cases c with
    | save m => exact ⟨_, hJ.save hacc⟩
    | writeBatch ops => exact ⟨_, hJ.writeBatch hU hwithin.2 hfit hacc⟩

lemma Tracks.numbered_le (h : Tracks U calls s J) (hfit : arrivalsIn calls < 2 ^ 64) :
    s.seq + 1 ≤ 2 ^ 64 := h.2.2.2.2.2.trans_lt hfit

section Reads

variable {p : String × String} (hU : Separate U) (h : Tracks U calls s J)
  (hfit : arrivalsIn calls < 2 ^ 64) (hp : p ∈ U)

include hU h hfit hp

lemma Tracks.currentVersion_eq : s.currentVersion p.1 = .ok (if (runLog p.1 calls).stored then
      some ⟨(runLog p.1 calls).metadata.getD (.blank p.1),
        (runLog p.1 calls).current GoTime.unsigned⟩
      else none) := by
  have hlt := h.numbered_le hfit
  obtain ⟨⟨c, hrep⟩, hn, hnamed, hin, hlog, -⟩ := h
  rw [← hlog]
  exact Journal.currentVersion_eq hrep hn hlt hnamed (hin.own hU hp) iter_eq

lemma Tracks.served_eq : ∃ o, s.fullHistory p.1 = .ok o ∧ o.map FullHistory.served =
      if (runLog p.1 calls).stored then some ((runLog p.1 calls).serve GoTime.unsigned p.1).kept
      else none := by
  have hlt := h.numbered_le hfit
  obtain ⟨⟨c, hrep⟩, hn, hnamed, hin, hlog, -⟩ := h
  rw [← hlog]
  exact Journal.fullHistory_served hrep hn hlt hnamed (hin.own hU hp) iter_eq

end Reads

/-! ## Isolation -/

/-- Two histories of a run differ at most in the status of records of a task. -/
def ChangedOnly (task : String) : Option FullHistory → Option FullHistory → Prop
  | none, none => True
  | some a, some b =>
    b.metadata = a.metadata ∧ b.history = a.history ∧
      List.Forall₂ (fun x y => y = x ∨ x.taskID = task ∧ y = { x with status := y.status })
        a.values b.values
  | _, _ => False

/-- Isolation, for all calls with ids in use. -/
structure Isolated (enc : Encoder) (U : Set (String × String)) : Prop where
  /-- What is read for a run is decided by the operations on the run. -/
  reads : ∀ (calls calls' : List StoreCall) (s s' : PebbleStore), ∀ p ∈ U,
    (∀ c ∈ calls, c.Within U) → (∀ c ∈ calls', c.Within U) →
    arrivalsIn calls < 2 ^ 64 → arrivalsIn calls' < 2 ^ 64 →
    acceptAll enc calls = .ok s → acceptAll enc calls' = .ok s' →
    opsOn p.1 calls = opsOn p.1 calls' →
    s.currentVersion p.1 = s'.currentVersion p.1 ∧
      ∃ o o', s.fullHistory p.1 = .ok o ∧ s'.fullHistory p.1 = .ok o' ∧
        o.map FullHistory.served = o'.map FullHistory.served
  /-- A flip changes records of its run and task only. -/
  flips : ∀ (calls : List StoreCall) (op : WriteOp) (f : StatusFlip) (s s' : PebbleStore), ∀ p ∈ U,
    (∀ c ∈ calls ++ [.writeBatch [op]], c.Within U) → arrivalsIn calls < 2 ^ 64 →
    acceptAll enc calls = .ok s → s.accept enc (.writeBatch [op]) = .ok s' →
    op.event? = some (.flip f) →
    ∃ o o', s.fullHistory p.1 = .ok o ∧ s'.fullHistory p.1 = .ok o' ∧
      (p.1 ≠ op.runID → o' = o) ∧ ChangedOnly f.taskID o o'

variable {runID runID' : String} {f : StatusFlip}

/-- The records of a run after a flip that hits records of its run and task only. -/
lemma sorted_flip (h : J.Exact runID' f) : (stableSort (fun q => q.2.timestamp.unsigned)
        ((J.flip runID' f).values.filter fun q => q.1 = runID)).map (fun q => q.2.kept) =
      (stableSort (fun q => q.2.timestamp.unsigned) (J.values.filter fun q => q.1 = runID)).map
        fun q => if runID' = runID then (f.settle q.2).kept else q.2.kept := by
  have hkey : (fun q : String × ValueRecord =>
      (if runID' = runID then (q.1, f.settle q.2) else q).2.timestamp.unsigned) =
      fun q => q.2.timestamp.unsigned := by
    funext q
    split
    · rw [StatusFlip.settle]
      split <;> rfl
    · rfl
  rw [Journal.filter_flip h,
    ← map_stableSort (fun q : String × ValueRecord => q.2.timestamp.unsigned)
    (fun q => if runID' = runID then (q.1, f.settle q.2) else q), hkey, map_map]
  refine map_congr_left fun q _ => ?_
  rw [Function.comp_apply]
  split <;> rfl

lemma stored_flip (h : J.Exact runID' f) :
    ((J.flip runID' f).runLog runID).stored = (J.runLog runID).stored := by
  rw [Journal.runLog_flip h]
  split
  · rw [RunLog.stored, RunLog.stored, RunLog.apply, isEmpty_map]
  · rfl

variable {op : WriteOp}

lemma isolated_of_separate (hU : Separate U) : Isolated enc U where
  reads calls calls' s s' p hp hwithin hwithin' hfit hfit' hacc hacc' hops := by
    obtain ⟨J, hJ⟩ := tracks_acceptAll hU hwithin hfit hacc
    obtain ⟨J', hJ'⟩ := tracks_acceptAll hU hwithin' hfit' hacc'
    have hlog : runLog p.1 calls = runLog p.1 calls' := by
      rw [runLog, hops, runLog]
    obtain ⟨o, ho, hserved⟩ := hJ.served_eq hU hfit hp
    obtain ⟨o', ho', hserved'⟩ := hJ'.served_eq hU hfit' hp
    refine ⟨?_, o, o', ho, ho', ?_⟩
    · rw [hJ.currentVersion_eq hU hfit hp, hJ'.currentVersion_eq hU hfit' hp, hlog]
    · rw [hserved, hserved', hlog]
  flips calls op f s s' p hp hwithin hfit hacc hacc' hf := by
    rw [forall_mem_concat] at hwithin
    obtain ⟨J, hJ⟩ := tracks_acceptAll hU hwithin.1 hfit hacc
    have hcount : arrivalsIn (calls ++ [.writeBatch [op]]) = arrivalsIn calls := by
      rw [arrivalsIn_append_singleton, StoreCall.arrivals, arrivalsOf, filterMap_cons_some hf]
      rfl
    have hJ' := hJ.writeBatch hU hwithin.2 (hcount ▸ hfit) hacc'
    have hlt := hJ.numbered_le hfit
    have hlt' := hJ'.numbered_le (hcount ▸ hfit)
    have hstep : J.applyOps (s.seq + 1) [op] = J.flip op.runID f := Journal.applyOps_cons hf
    rw [hstep] at hJ'
    obtain ⟨⟨c, hrep⟩, hn, hnamed, hin, -⟩ := hJ
    obtain ⟨⟨c', hrep'⟩, hn', hnamed', hin', -⟩ := hJ'
    have hexact : J.Exact op.runID f := by
      have hop := hwithin.2 op mem_cons_self
      rw [WriteOp.Within, hf] at hop
      exact hin.exact hU hop
    refine ⟨_, _, Journal.fullHistory_eq hrep hn hlt hnamed (hin.own hU hp) iter_eq,
      Journal.fullHistory_eq hrep' hn' hlt' hnamed' (hin'.own hU hp) iter_eq, ?_, ?_⟩
    · intro hr
      rw [stored_flip hexact, sorted_flip hexact]
      simp only [if_neg (Ne.symm hr)]
      rfl
    · rw [stored_flip hexact, sorted_flip hexact]
      cases (J.runLog p.1).stored with
      | false => exact trivial
      | true =>
        refine ⟨rfl, rfl, ?_⟩
        rw [forall₂_map_left_iff, forall₂_map_right_iff, forall₂_same]
        intro q _
        split
        · rw [StatusFlip.settle]
          split
          · rename_i h
            exact .inr ⟨h.1, rfl⟩
          · exact .inl rfl
        · exact .inl rfl

/-! ## Ids that run into each other -/

variable {c : Option Nat}

/-- A batch of valid operations whose payloads can be encoded is accepted. -/
lemma accept_encodable (hrep : J.Represents c s.db) (hn : J.Numbered (s.seq + 1))
    (ops : List WriteOp) (hops : ∀ op ∈ ops, op.Valid)
    (henc : ∀ op ∈ ops, ∀ e, op.event? = some e → e.encode enc.payload = .ok ())
    (hfit : s.seq + arrivalsOf ops < 2 ^ 64) :
    ∃ s' c', s.accept enc (.writeBatch ops) = .ok s' ∧
      (J.applyOps (s.seq + 1) ops).Represents c' s'.db ∧ s'.seq = s.seq + arrivalsOf ops := by
  rcases hrep.applyOps draws iter_eq hops hn (by omega) with
    ⟨b, hrun, hb⟩ | ⟨msg, n, -, -, -, op, hop, e, he, hbad⟩
  · have hrun : s.applyOps enc ops = _ := hrun
    refine ⟨⟨b.set Journal.seqKey (.number (s.seq + arrivalsOf ops)),
      s.seq + arrivalsOf ops⟩, _, ?_,
      hb.setCounter _, rfl⟩
    simp only [accept, writeBatch, forM_validateWriteOp.2 hops, hrun]
  · exact absurd (henc op hop e he) hbad

/-- A history entry. -/
def someEntry : HistoryEntry := ⟨"k", none, "e", [], ⟨1, 0⟩⟩

/-- A history entry of a run. -/
def entryOp (runID : String) : WriteOp where
  runID := runID
  kind := .historyEntry
  valueWrite := none
  statusFlip := none
  historyEntry := some someEntry

variable {a b : String}

lemma ne_of_extends (h : Extends bar (bytesOf a) (bytesOf b)) : b ≠ a := by
  rintro rfl
  exact not_extends_self h

lemma runStem_extends {kind : UInt8} (h : Extends bar (bytesOf a) (bytesOf b))
    (ts : Int) (seq : Nat) : runStem kind a <+: eventKey kind b ts seq := by
  obtain ⟨z, hz⟩ := h
  refine ⟨z ++ bar :: eventSuffix ts seq, ?_⟩
  simp [runStem, eventKey, hz]

/-- The first batch of a store. -/
lemma accept_first (enc : Encoder) {e : Event} (hop : op.Valid)
    (he : op.event? = some e) (henc : e.encode enc.payload = .ok ()) :
    ∃ s c, acceptAll enc [.writeBatch [op]] = .ok s ∧
      (Journal.empty.apply 1 op.runID e).Represents c s.db ∧ s.seq = arrivalsOf [op] := by
  have hroom : (new .empty).seq + arrivalsOf [op] < 2 ^ 64 := by
    rw [arrivalsOf, filterMap_cons_some he]
    cases e with
    | flip f => exact (show 0 + 0 < 2 ^ 64 by decide)
    | value w | history h => exact (show 0 + 1 < 2 ^ 64 by decide)
  have hone : ∀ op' ∈ [op], ∀ e', op'.event? = some e' → e'.encode enc.payload = .ok () := by
    refine forall_mem_singleton.2 fun e' he' => ?_
    rwa [← Option.some.inj (he.symm.trans he')]
  obtain ⟨s, c, hacc, hrep, hseq⟩ := accept_encodable (s := new .empty) Journal.represents_empty
    (Journal.numbered_empty _) [op] (forall_mem_singleton.2 hop) hone hroom
  refine ⟨s, c, ?_, ?_, hseq.trans (Nat.zero_add _)⟩
  · rw [acceptAll, foldlM_cons, hacc]
    rfl
  · rwa [Journal.applyOps_cons he] at hrep

/-- A store with a single record. -/
lemma fullHistory_single {w : ValueWrite} {st : ValueStatus} (hst : st.Named)
    (hrep : Journal.Represents ⟨fun _ => none, [(runID, ⟨w, st, 1⟩)], []⟩ c s.db) :
    s.fullHistory runID = .ok (some ⟨.blank runID, [ValueRecord.kept ⟨w, st, 1⟩], []⟩) := by
  have hn : Journal.Numbered ⟨fun _ => none, [(runID, ⟨w, st, 1⟩)], []⟩ 2 :=
    Journal.apply_numbered (Journal.numbered_empty 1) runID (.value w) |>.settle (fun _ => true) st
  have hown : Journal.Own ⟨fun _ => none, [(runID, ⟨w, st, 1⟩)], []⟩ runID :=
    ⟨forall_mem_singleton.2 fun _ => rfl, nofun⟩
  have heq := Journal.fullHistory_eq hrep hn (by decide) (forall_mem_singleton.2 hst) hown iter_eq
  simpa [Journal.runLog, RunLog.stored, stableSort, fullHistory] using heq

section Necessary

variable (hnull : enc.payload (bytesOf "null") = .ok ())
  (hids : ∀ p ∈ U, p.1 ≠ "" ∧ p.2 ≠ "") (h : Isolated enc U) {p q : String × String} (hp : p ∈ U)
  (hq : q ∈ U)

include hnull hids h hp hq

/-- A run is read as if it existed once a run with a longer id does. -/
lemma runs_separate : ¬ Extends bar (bytesOf p.1) (bytesOf q.1) := by
  intro hext
  have hop : (entryOp q.1).Valid := by
    simp [WriteOp.Valid, validateWriteOp, entryOp, someEntry, hids q hq, GoTime.isZero]
  obtain ⟨s, c, hacc, hrep, -⟩ := accept_first enc hop rfl hnull
  have hops : opsOn p.1 [] = opsOn p.1 [.writeBatch [entryOp q.1]] := by
    have hne : (entryOp q.1).runID ≠ p.1 := ne_of_extends hext
    simp [opsOn, StoreCall.opsOn, hne]
  have hread := (h.reads [] [.writeBatch [entryOp q.1]] (new .empty) s p hp (forall_mem_nil _)
    (forall_mem_singleton.2 (forall_mem_singleton.2 ⟨q.2, hq⟩)) (by decide)
    (show 0 + 1 < 2 ^ 64 by decide) rfl hacc hops).1
  have hmem : (Journal.historyKey (q.1, ⟨someEntry, 1⟩), .history someEntry.toRec) ∈
      iter s.db (runStem 104 p.1) := by
    rw [iter_eq, KeyStore.mem_scan]
    exact ⟨(hrep _ _).2 (.history mem_cons_self), runStem_extends hext _ _⟩
  have hmeta : Keyed.runMeta iter s.db p.1 = .ok (.blank p.1, true) := by
    have hne : (iter s.db (runStem 104 p.1)).isEmpty = false :=
      isEmpty_eq_false_iff_exists_mem.2 ⟨_, hmem⟩
    rw [Keyed.runMeta, Journal.get_metaKey hrep]
    simp [Journal.apply, Journal.addHistory, Journal.empty, hne]
  have hnone : (new .empty).currentVersion p.1 = .ok none := rfl
  rw [hnone, currentVersion, Keyed.currentVersion, hmeta, Fallible.ok_bind, eq_comm] at hread
  obtain ⟨vs, -, hvs⟩ := Fallible.bind_eq_ok.1 hread
  cases hvs

/-- A flip settles records of a task with a longer id. -/
lemma tasks_separate (hr : p.1 = q.1) : ¬ Extends bar (bytesOf p.2) (bytesOf q.2) := by
  intro hext
  have hop : (taskOp q.1 q.2).Valid := by
    simp [WriteOp.Valid, validateWriteOp, taskOp, someWrite, hids q hq, GoTime.isZero]
  obtain ⟨s, c, hacc, hrep, hseq⟩ := accept_first enc hop rfl hnull
  have hseq : s.seq = 1 := hseq
  have hn : (Journal.empty.apply 1 q.1 (.value (someWrite q.2))).Numbered (s.seq + 1) := by
    rw [hseq]
    exact Journal.apply_numbered (Journal.numbered_empty 1) q.1 (.value (someWrite q.2))
  have hroom : s.seq + arrivalsOf [commitOp q.1 p.2] < 2 ^ 64 := by
    rw [hseq]
    exact (show 1 + 0 < 2 ^ 64 by decide)
  have henc : ∀ op ∈ [commitOp q.1 p.2], ∀ e, op.event? = some e →
      e.encode enc.payload = .ok () := by
    refine forall_mem_singleton.2 fun e he => ?_
    obtain rfl := Option.some.inj he
    rfl
  obtain ⟨s', c', hacc', hrep', -⟩ := accept_encodable hrep hn _
    (forall_mem_singleton.2
      (by simp [WriteOp.Valid, validateWriteOp, commitOp, hids q hq, hids p hp])) henc hroom
  have hhit : Journal.hits q.1 p.2 (q.1, ⟨someWrite q.2, .pending, 1⟩) = true := by
    obtain ⟨z, hz⟩ := hext
    rw [Journal.hits, isPrefixOf_iff_prefix]
    refine ⟨z ++ bar :: suffixOf (Journal.valueKey (q.1, ⟨someWrite q.2, .pending, 1⟩)), ?_⟩
    simp [flipStem, Journal.indexKey, pendingKey, hz, someWrite]
  have hflip : (Journal.empty.apply 1 q.1 (.value (someWrite q.2))).applyOps (s.seq + 1)
      [commitOp q.1 p.2] = ⟨fun _ => none, [(q.1, ⟨someWrite q.2, .committed, 1⟩)], []⟩ := by
    rw [Journal.applyOps_cons rfl]
    simp [Journal.applyOps, Journal.apply, Journal.flip, Journal.settle, Journal.addValue,
      Journal.empty, commitOp, hhit]
  have hcalls : ∀ c ∈ [.writeBatch [taskOp q.1 q.2]] ++ [.writeBatch [commitOp q.1 p.2]],
      StoreCall.Within U c := by
    rw [forall_mem_append]
    refine ⟨forall_mem_singleton.2 (forall_mem_singleton.2 hq), ?_⟩
    exact forall_mem_singleton.2 (forall_mem_singleton.2 (hr ▸ hp))
  obtain ⟨o, o', ho, ho', -, hchanged⟩ := h.flips _ _ _ s s' q hq hcalls
    (show 0 + 1 < 2 ^ 64 by decide) hacc hacc' rfl
  have hnamed : ValueStatus.Named .pending := rfl
  have hnamed' : ValueStatus.Named .committed := rfl
  obtain rfl := Except.ok.inj ((fullHistory_single hnamed hrep).symm.trans ho)
  obtain rfl := Except.ok.inj ((fullHistory_single hnamed' (hflip ▸ hrep')).symm.trans ho')
  obtain ⟨-, -, hvalues⟩ := hchanged
  rcases (forall₂_cons.1 hvalues).1 with heq | ⟨htask, -⟩
  · cases congrArg ValueRecord.status heq
  · exact ne_of_extends hext htask

end Necessary

/-- The Pebble store keeps runs and tasks apart, for all accepted calls with given ids,
exactly when no run id is another one, a separator and more, and no task id of a run
is another one of the run, a separator and more. -/
theorem pebble_isolated_iff_separate (enc : Encoder)
    (hnull : enc.payload (bytesOf "null") = .ok ()) (U : Set (String × String))
    (hids : ∀ p ∈ U, p.1 ≠ "" ∧ p.2 ≠ "") : Isolated enc U ↔ Separate U := by
  constructor
  · intro h
    exact ⟨fun p hp q hq => runs_separate hnull hids h hp hq,
      fun p hp q hq hr => tasks_separate hnull hids h hp hq hr⟩
  · exact isolated_of_separate

/-- Nothing has been written for run `a`, yet with a record of run `a|b` it is read as
a run with that record; and a flip for task `t` settles a write of task `t|u`. -/
theorem pebble_ids_run_together : opsOn "a" [] = opsOn "a" [.writeBatch [taskOp "a|b" "t"]] ∧
    (acceptAll .all []).bind (fun s => s.fullHistory "a") = .ok none ∧
    (acceptAll .all [.writeBatch [taskOp "a|b" "t"]]).bind (fun s => s.fullHistory "a") =
      .ok (some ⟨.blank "a", [⟨someWrite "t", .pending, 1⟩], []⟩) ∧
    (acceptAll .all [.writeBatch [taskOp "a" "t|u"], .writeBatch [commitOp "a" "t"]]).bind
        (fun s => s.fullHistory "a") =
      .ok (some ⟨.blank "a", [⟨someWrite "t|u", .committed, 1⟩], []⟩) := by
  refine ⟨by decide, rfl, ?_, ?_⟩
  all_goals decide +kernel

/-- Two runs, the first with two tasks. -/
theorem pebble_isolated_two_runs : Isolated .all {("a", "t"), ("a", "u"), ("b", "t")} := by
  have hbar : ∀ p ∈ ({("a", "t"), ("a", "u"), ("b", "t")} : Set (String × String)),
      bar ∉ bytesOf p.1 ∧ bar ∉ bytesOf p.2 := by
    rintro p (rfl | rfl | rfl) <;> decide
  refine (pebble_isolated_iff_separate .all rfl _ ?_).2 ⟨?_, ?_⟩
  · rintro p (rfl | rfl | rfl) <;> decide
  · rintro p - q hq ⟨z, hz⟩
    exact (hbar q hq).1 (by simp [hz])
  · rintro p - q hq - ⟨z, hz⟩
    exact (hbar q hq).2 (by simp [hz])

end PebbleStore

end Blkit
