import Blkit.Order.Ranked
import Blkit.Store.NatsSession

/-!
# The order of replay

`FullHistory` and `CurrentVersion` sort the records of a run by timestamp and revision.  A
flip puts records back and so gives them new revisions: they move behind every record with
the same timestamp that it leaves alone.  Records are replayed in the order they were
written in, through a whole session, just when every flip that settles a record also
settles the records of the run with the same timestamp that were written after it.
-/

namespace Blkit

open List Bucket

namespace Nats

/-- The records, as replay sorts them. -/
def replayOrder (kv : KV) (ds : List Drawn) : List Drawn :=
  stableSort (placeBy (fun d : Drawn => d.arrival.nanos) fun d => kv.revisionOf d.key) ds

/-- The records by timestamp, and those with equal timestamps as they were written. -/
def writtenOrder (ds : List Drawn) : List Drawn := stableSort (fun d : Drawn => d.arrival.nanos) ds

/-- Of two records with the same timestamp, the one written first has the smaller
revision. -/
def Ordered (kv : KV) (ds : List Drawn) : Prop :=
  ds.Pairwise fun i j => i.arrival.nanos = j.arrival.nanos →
    kv.revisionOf i.key < kv.revisionOf j.key

/-- The value a record has at a place, if it is committed there. -/
def Drawn.committedAt (kv : KV) (task field : String) (d : Drawn) : Option (List UInt8) :=
  match d.arrival with
  | .value v =>
    if statusAt kv d.key = some ValueStatus.committed.string ∧ v.taskID = task ∧
      v.field = field then
      some v.value
    else none
  | .history _ => none

/-- `FullHistory` shows the values under the keys of `vs` and the entries under those of
`hs`, in this order. -/
def Shows (kv : KV) (runID : String) (vs hs : List Drawn) : Prop :=
  ∃ fh, fullHistory kv runID = .ok (some fh) ∧
    vs.mapM (fun d => loadValue kv d.key) = .ok fh.values ∧
    hs.mapM (fun d => loadEntry kv d.key) = .ok fh.history

/-- The time a record that is read shows. -/
def Arrival.shown : Arrival → Int
  | .value w => w.timestamp.unixNano
  | .history h => h.timestamp.unixNano

lemma Arrival.shown_kept (a : Arrival) : a.kept.shown = a.nanos := by
  cases a <;> rfl

variable {kv : KV} {k : List Char}

lemma loadValue_seq {r : ValueRecord} (h : loadValue kv k = .ok r) : r.seq = kv.revisionOf k := by
  rw [loadValue] at h
  rw [revisionOf]
  split at h
  · cases h
  · rename_i e he
    rw [he, Option.elim_some]
    rw [ValueRec.read] at h
    split at h
    · cases h
    · cases h
      rfl

lemma loadEntry_seq {r : HistoryRecord} (h : loadEntry kv k = .ok r) : r.seq = kv.revisionOf k := by
  rw [loadEntry] at h
  rw [revisionOf]
  split at h
  · cases h
  · rename_i e he
    cases h
    rw [he, Option.elim_some]
    rfl

/-- Records that are loaded from the same revisions are under the same keys. -/
lemma eq_of_mapM_load {β : Type} {load : List Char → Except String β} {seq : β → Nat}
    (hseq : ∀ k r, load k = .ok r → seq r = kv.revisionOf k) {ds es : List Drawn} {rs : List β}
    (hds : ds.mapM (fun d => load d.key) = .ok rs) (hes : es.mapM (fun d => load d.key) = .ok rs)
    (hinj : ∀ d ∈ ds, ∀ e ∈ es, kv.revisionOf d.key = kv.revisionOf e.key → d = e) : ds = es := by
  rw [Fallible.mapM_eq_ok] at hds hes
  induction hds generalizing es with
  | nil =>
    cases hes
    rfl
  | cons hd _ ih =>
    cases hes with
    | cons he hes =>
      rw [forall_mem_cons, forall_mem_cons] at hinj
      have hhead := hinj.1.1 ((hseq _ _ hd).symm.trans (hseq _ _ he))
      rw [hhead, ih hes fun d hd e he => hinj.2 d hd e (mem_cons_of_mem _ he)]

namespace World

variable {w : World}

section Reading

variable (hs : w.Sound) (hkeys : (w.accepted.map Drawn.key).Nodup) {runID : String}
  (hsep : ∀ r', w.InUse r' → ¬ Nested runID r')

include hs hkeys in
lemma revisionOf_key_inj {d e : Drawn} (hd : d ∈ w.accepted) (he : e ∈ w.accepted)
    (h : w.kv.revisionOf d.key = w.kv.revisionOf e.key) : d = e :=
  inj_on_of_nodup_map hkeys hd he (revisionOf_inj (hs.present d hd) (hs.present e he) h)

include hs hkeys in
/-- A loop that loads the records of a run in any order and sorts them for replay. -/
lemma mapM_replayOrder {β : Type} {load : List Char → Except String β} {asArrival : β → Arrival}
    {time : β → GoTime} {seq : β → Nat} {kind : Kind}
    (htime : ∀ r, (time r).unixNano = (asArrival r).shown)
    (hseq : ∀ k r, load k = .ok r → seq r = w.kv.revisionOf k) {ds : List Drawn} {rs : List β}
    (h : ds.Perm (w.acceptedFor kind runID) ∧ (ds.map Drawn.key).mapM load = .ok rs ∧
      rs.map asArrival = ds.map fun d => d.arrival.kept) :
    (replayOrder w.kv (w.acceptedFor kind runID)).mapM (fun d => load d.key) =
      .ok (sortReplay time seq rs) := by
  obtain ⟨hperm, hrs, hmap⟩ := h
  have hsorted : replayOrder w.kv (w.acceptedFor kind runID) = replayOrder w.kv ds := by
    refine stableSort_of_perm hperm.symm fun d hd e he h => ?_
    refine revisionOf_key_inj hs hkeys (mem_acceptedFor hd).1 (mem_acceptedFor he).1 ?_
    exact congrArg (fun p => (ofLex p).2) h
  rw [hsorted, sortReplay_eq_stableSort, Fallible.mapM_eq_ok]
  rw [Fallible.mapM_eq_ok, forall₂_map_left_iff] at hrs
  have hrs' : List.Forall₂ (fun d r => load d.key = .ok r ∧
      placeBy (fun d : Drawn => d.arrival.nanos) (fun d => w.kv.revisionOf d.key) d =
        replayKey (time r) (seq r)) ds rs := by
    rw [← forall₂_eq_eq_eq, forall₂_map_left_iff, forall₂_map_right_iff] at hmap
    refine hmap.flip.mp (fun d r hkept hr => ⟨hr, ?_⟩) hrs
    rw [placeBy, replayKey, htime, hkept, Arrival.shown_kept, hseq _ r hr]
  exact (forall₂_stableSort (fun _ _ h => h.2) hrs').imp fun _ _ h => h.1

include hs hkeys hsep in
/-- `FullHistory` of a run shows its records as replay sorts them. -/
lemma shows_replayOrder (hrun : ∃ d ∈ w.accepted, d.runID = runID) :
    Shows w.kv runID (replayOrder w.kv (w.acceptedFor .value runID))
      (replayOrder w.kv (w.acceptedFor .history runID)) := by
  obtain ⟨vs, es, values, history, hvalues, hhistory, hfh, -⟩ := reads_accepted hs hkeys hsep hrun
  refine ⟨_, hfh, ?_, ?_⟩
  · exact mapM_replayOrder hs hkeys (fun _ => rfl) (fun _ _ => loadValue_seq) hvalues
  · exact mapM_replayOrder hs hkeys (fun _ => rfl) (fun _ _ => loadEntry_seq) hhistory

include hs hkeys in
/-- Replay is in the order of writing just when the revisions are. -/
lemma replayOrder_eq_iff {kind : Kind} :
    replayOrder w.kv (w.acceptedFor kind runID) = writtenOrder (w.acceptedFor kind runID) ↔
      Ordered w.kv (w.acceptedFor kind runID) := by
  refine stableSort_placeBy_iff ?_
  have hnodup : (w.acceptedFor kind runID).Nodup := (hkeys.of_map _).filter _
  refine hnodup.imp_of_mem fun {d e} hd he hne h => hne ?_
  exact revisionOf_key_inj hs hkeys (mem_acceptedFor hd).1 (mem_acceptedFor he).1 h

include hs hkeys hsep in
lemma shows_writtenOrder_iff (hrun : ∃ d ∈ w.accepted, d.runID = runID) :
    Shows w.kv runID (writtenOrder (w.acceptedFor .value runID))
      (writtenOrder (w.acceptedFor .history runID)) ↔
      ∀ kind, Ordered w.kv (w.acceptedFor kind runID) := by
  obtain ⟨fh, hfh, hvalues, hhistory⟩ := shows_replayOrder hs hkeys hsep hrun
  have hinj (kind : Kind) : ∀ d ∈ replayOrder w.kv (w.acceptedFor kind runID),
      ∀ e ∈ writtenOrder (w.acceptedFor kind runID),
        w.kv.revisionOf d.key = w.kv.revisionOf e.key → d = e := fun d hd e he =>
    revisionOf_key_inj hs hkeys (mem_acceptedFor (mem_stableSort.1 hd)).1
      (mem_acceptedFor (mem_stableSort.1 he)).1
  constructor
  · rintro ⟨fh', hfh', hvalues', hhistory'⟩ kind
    obtain rfl : fh = fh' := Option.some.inj (Except.ok.inj (hfh.symm.trans hfh'))
    rw [← replayOrder_eq_iff hs hkeys]
    cases kind with
    | value => exact eq_of_mapM_load (fun _ _ => loadValue_seq) hvalues hvalues' (hinj .value)
    | history => exact eq_of_mapM_load (fun _ _ => loadEntry_seq) hhistory hhistory' (hinj .history)
  · intro hord
    rw [← (replayOrder_eq_iff hs hkeys).2 (hord .value),
      ← (replayOrder_eq_iff hs hkeys).2 (hord .history)]
    exact ⟨fh, hfh, hvalues, hhistory⟩

include hs hkeys in
/-- A loaded record has the value and the status of the one in the bucket. -/
lemma committedAt_loadValue {d : Drawn} (hd : d ∈ w.acceptedFor .value runID) {r : ValueRecord}
    (h : loadValue w.kv d.key = .ok r) (task field : String) :
    d.committedAt w.kv task field = r.committedAt task field := by
  obtain ⟨hd, hkind⟩ := mem_acceptedFor hd
  obtain ⟨e, he, hholds⟩ := get_key hs hkeys hd
  rw [Drawn.committedAt, statusAt, valueAt, he, Option.bind_some]
  rw [loadValue, he] at h
  cases ha : d.arrival with
  | history en =>
    rw [ha] at hkind
    cases hkind
  | value v =>
    rw [ha] at hholds
    obtain ⟨st, hst, hv⟩ := hholds
    simp only [hv, Record.asValue] at h ⊢
    have hr := h.symm.trans (ValueRec.read_toRec hst v e.revision)
    rw [Except.ok.inj hr, ValueRecord.committedAt]
    refine if_congr (and_congr ?_ Prod.mk_inj.symm) rfl rfl
    rw [Option.map_some, Option.some.injEq]
    exact hst.string_eq .committed rfl

include hs hkeys hsep in
/-- `CurrentVersion` of a run picks the values that are committed last in replay order. -/
lemma currentVersion_replayOrder (hrun : ∃ d ∈ w.accepted, d.runID = runID) :
    ∃ cv, currentVersion w.kv runID = .ok (some cv) ∧ ∀ task field, cv.values.lookup task field =
        ((replayOrder w.kv (w.acceptedFor .value runID)).filterMap
          (Drawn.committedAt w.kv task field)).getLast? := by
  obtain ⟨vs, es, values, history, hvalues, -, -, hcv⟩ := reads_accepted hs hkeys hsep hrun
  refine ⟨_, hcv, fun task field => ?_⟩
  have hload := mapM_replayOrder hs hkeys (fun _ => rfl) (fun _ _ => loadValue_seq) hvalues
  have hrel :=
    (forall₂_and_left _ _).2 ⟨fun d hd => mem_stableSort.1 hd, Fallible.mapM_eq_ok.1 hload⟩
  rw [lookup_foldl_put_getLast?]
  congr 1
  -- record by record, both sides keep the same values
  show (sortReplay (fun r : ValueRecord => r.timestamp) (fun r => r.seq) values).filterMap _ = _
  generalize sortReplay (fun r : ValueRecord => r.timestamp) (fun r => r.seq) values = rs at hrel
  generalize replayOrder w.kv (w.acceptedFor .value runID) = ds at hrel
  induction hrel with
  | nil => rfl
  | cons h _ ih => rw [filterMap_cons, filterMap_cons, ih, committedAt_loadValue hs hkeys h.1 h.2]

end Reading

end World

/-! ## What a flip puts back -/

/-- The keys a flip puts back: those of pending records of its task, up to the first one
the server refuses. -/
def settledKeys (server : Server) (f : StatusFlip) (kv : KV) (ks : List (List Char)) :
    List (List Char) :=
  (ks.filter fun k => ((kv.get k).bind fun e => flipped f e.value).isSome).takeWhile
    fun k => (server k).isOk

/-- The record a flip puts back under a key. -/
def settledAt (f : StatusFlip) (kv : KV) (k : List Char) : Record :=
  ((kv.get k).bind fun e => flipped f e.value).getD (.metadata (.blank ""))

lemma settledKeys_sublist (server : Server) (f : StatusFlip) (kv : KV) (ks : List (List Char)) :
    (settledKeys server f kv ks).Sublist ks :=
  (takeWhile_sublist _).trans filter_sublist

variable {server : Server} {f : StatusFlip} {ks : List (List Char)}

/-- A flip looks at the entries of its keys alone. -/
lemma settledKeys_congr {kv' : KV}
    (h : ∀ k ∈ ks, kv.get k = kv'.get k) : settledKeys server f kv ks =
      settledKeys server f kv' ks := by
  rw [settledKeys, settledKeys]
  congr 1
  exact filter_congr fun k hk => by rw [h k hk]

/-- What a flip does to the bucket. -/
lemma settleKeys_eq (server : Server) (f : StatusFlip)
    (hks : ks.Nodup) (hmem : ∀ k ∈ ks, k ∈ kv.keys) :
    (settleKeys server f kv ks).2 = kv.putAll (settledAt f kv) (settledKeys server f kv ks) := by
  induction ks generalizing kv with
  | nil => rfl
  | cons k ks ih =>
    rw [nodup_cons] at hks
    rw [forall_mem_cons] at hmem
    obtain ⟨e, he⟩ := mem_keys.1 hmem.1
    cases hr : flipped f e.value with
    | none =>
      have hkeys : settledKeys server f kv (k :: ks) = settledKeys server f kv ks := by
        rw [settledKeys, filter_cons_of_neg (by simp [he, hr]), settledKeys]
      simp only [settleKeys, he, hr, hkeys]
      exact ih hks.2 hmem.2
    | some r =>
      have hfilter := filter_cons_of_pos (l := ks)
        (p := fun k => ((kv.get k).bind fun e => flipped f e.value).isSome)
          (a := k) (by simp [he, hr])
      cases hserver : server k with
      | error msg =>
        have hkeys : settledKeys server f kv (k :: ks) = [] := by
          rw [settledKeys, hfilter,
            takeWhile_cons_of_neg (by simp [hserver, Except.isOk, Except.toBool])]
        simp only [settleKeys, he, hr, hserver, hkeys]
        rfl
      | ok u =>
        have hframe : ∀ k' ∈ ks, (kv.put k r).get k' = kv.get k' := fun k' hk' =>
          get_put_of_ne fun h => hks.1 (h ▸ hk')
        have hkeys : settledKeys server f kv (k :: ks) = k :: settledKeys server f kv ks := by
          rw [settledKeys, hfilter, takeWhile_cons_of_pos (by rw [hserver]; rfl), settledKeys]
        have hrecord : settledAt f kv k = r := by
          rw [settledAt, he, Option.bind_some, hr, Option.getD_some]
        simp only [settleKeys, he, hr, hserver, hkeys]
        rw [putAll_cons, hrecord, ih hks.2 fun k' hk' => mem_keys_put.2 (.inr (hmem.2 k' hk')),
          settledKeys_congr hframe]
        refine putAll_congr fun k' hk' => ?_
        rw [settledAt, hframe k' ((settledKeys_sublist server f kv ks).subset hk'), settledAt]

lemma settledAt_of_mem (hk : k ∈ settledKeys server f kv ks) :
    ∃ v, settledAt f kv k = .value v := by
  have hsome := (mem_filter.1 ((takeWhile_sublist _).subset hk)).2
  obtain ⟨r, hr⟩ := Option.isSome_iff_exists.1 hsome
  obtain ⟨e, -, hflip⟩ := Option.bind_eq_some_iff.1 hr
  rw [settledAt, hr, Option.getD_some]
  rw [flipped] at hflip
  split at hflip
  · cases hflip
  · exact ⟨_, (Option.some.inj hflip).symm⟩

namespace Session

variable {marshal : List UInt8 → Except String Unit} {encode : RunMetadata → Except String Unit}
  {s s' : Session} {st : SeqStep}

/-- The records of a run, in the order they were written in. -/
def writtenFor (s : Session) (kind : Kind) (runID : String) : List Drawn :=
  s.written.filter fun d => d.arrival.kind = kind ∧ d.runID = runID

/-- Records with equal timestamps have increasing revisions, in every run. -/
def InOrder (s : Session) : Prop := ∀ kind runID, Ordered s.kv (s.writtenFor kind runID)

/-- A flip that settles a record settles the records of the run with the same timestamp
that were written after it. -/
def Even (s : Session) (st : SeqStep) : Prop :=
  ∀ server runID f, st.flip? = some (server, runID, f) →
    (s.writtenFor .value runID).Pairwise fun i j => i.arrival.nanos = j.arrival.nanos →
      i.key ∈ settledKeys server f s.kv (runKeys s.kv (stem .value runID)) →
        j.key ∈ settledKeys server f s.kv (runKeys s.kv (stem .value runID))

/-- The runs the bucket knows are among `ids`. -/
structure Named (s : Session) (ids : List String) : Prop where
  written : ∀ d ∈ s.written, d.runID ∈ ids
  metas : ∀ k e m, s.kv.get k = some e → e.value = .metadata m → m.runID ∈ ids

variable {ids : List String}

lemma Named.mono {ids' : List String} (h : s.Named ids) (hids : ids ⊆ ids') : s.Named ids' :=
  ⟨fun d hd => hids (h.written d hd), fun k e m he hm => hids (h.metas k e m he hm)⟩

lemma flipped_kv (server : Server) (f : StatusFlip) (kv : KV) (runID : String) :
    (settleKeys server f kv (runKeys kv (stem .value runID))).2 =
      kv.putAll (settledAt f kv) (settledKeys server f kv (runKeys kv (stem .value runID))) :=
  settleKeys_eq server f (nodup_keys.filter _) fun _ hk => (mem_filter.1 hk).1

lemma Named.outcome (h : s.Named ids) (ho : s.Outcome st s') : s'.Named (ids ++ [st.runID]) := by
  have hmono := h.mono (subset_append_left ids [st.runID])
  cases ho with
  | refused hst => exact hmono
  | lost hop ha => exact { hmono with }
  | @saved server m hm =>
    refine ⟨hmono.written, fun k e m' he hm' => ?_⟩
    change (s.kv.put (metaSuffix m.runID) (.metadata m)).get k = some e at he
    rw [get_put] at he
    split at he
    · cases he
      cases hm'
      exact mem_append_right _ (mem_singleton_self _)
    · exact hmono.metas k e m' he hm'
  | @wrote server op a hop ha d hd =>
    constructor
    · rw [forall_mem_concat]
      refine ⟨hmono.written, mem_append_right _ ?_⟩
      rw [hd]
      exact mem_singleton_self _
    · intro k e m he hm
      change (s.kv.put d.key a.record).get k = some e at he
      rw [get_put] at he
      split at he
      · cases he
        cases a <;> cases hm
      · exact hmono.metas k e m he hm
  | @flipped server op f hop hf =>
    refine ⟨hmono.written, fun k e m he hm => ?_⟩
    change (settleKeys server f s.kv (runKeys s.kv (stem .value op.runID))).2.get k = some e at he
    rw [flipped_kv] at he
    by_cases hk : k ∈ settledKeys server f s.kv (runKeys s.kv (stem .value op.runID))
    · obtain ⟨n, -, hget⟩ := @get_putAll_of_mem _ _ _ s.kv _ (settledAt f s.kv) _ hk
      obtain ⟨v, hv⟩ := settledAt_of_mem hk
      rw [hget, hv] at he
      cases he
      cases hm
    · rw [get_putAll_of_not_mem hk] at he
      exact hmono.metas k e m he hm

lemma named_run (sts : List SeqStep) :
    (new.run marshal encode sts).Named (sts.map SeqStep.runID) := by
  induction sts using reverseRecOn with
  | nil =>
    refine ⟨fun d hd => ?_, fun k e m he hm => ?_⟩
    · cases hd
    · cases he
  | append_singleton sts st ih =>
    rw [run_concat, map_append]
    exact ih.outcome (.of_step _ st)

lemma n_le_length (sts : List SeqStep) : (new.run marshal encode sts).handle.n ≤ sts.length := by
  induction sts using reverseRecOn with
  | nil => exact le_rfl
  | append_singleton sts st ih =>
    rw [run_concat, length_append, length_singleton]
    have hstep {s' : Session} (ho : (new.run marshal encode sts).Outcome st s') :
        s'.handle.n ≤ (new.run marshal encode sts).handle.n + 1 := by
      cases ho with
      | refused _ | saved _ _ | flipped _ _ => exact Nat.le_succ _
      | lost _ _ | wrote _ _ _ => exact le_rfl
    exact (hstep (.of_step _ st)).trans (Nat.succ_le_succ ih)

/-- A world that shows the session, and what holds of it. -/
lemma exists_world {sts : List SeqStep} (hfit : sts.length < 2 ^ 64) :
    ∃ w : World, w.kv = (new.run marshal encode sts).kv ∧
      w.accepted = (new.run marshal encode sts).written ∧ w.Sound ∧
      (w.accepted.map Drawn.key).Nodup ∧ ∀ r, w.InUse r → r ∈ sts.map SeqStep.runID := by
  obtain ⟨as, w, has, h⟩ := @mirrors_run marshal encode sts
  have hn : ∀ n, w.drawn n < 2 ^ 64 := fun n =>
    ((h.drawn_le n).trans (n_le_length sts)).trans_lt hfit
  have hclash : NoClash w.accepted := by
    rw [h.accepted]
    refine pairwise_iff_forall_sublist.2 fun {d e} hde hne => absurd ?_ hne
    rw [h.handle d (hde.subset (by simp)), h.handle e (hde.subset (by simp))]
  refine ⟨w, h.kv, h.accepted, World.sound_exec has,
    (World.nodup_keys_iff (World.numbers_exec has) hn).2 hclash, ?_⟩
  have hnamed := @named_run marshal encode sts
  rintro r (⟨d, hd, rfl⟩ | ⟨k, e, m, he, hm, rfl⟩)
  · rw [h.accepted] at hd
    exact hnamed.written d hd
  · rw [h.kv] at he
    exact hnamed.metas k e m he hm

/-! ## What a step does to the order -/

variable {kv : KV} {ds : List Drawn}

lemma ordered_congr {kv' : KV}
    (hrev : ∀ d ∈ ds, kv'.revisionOf d.key = kv.revisionOf d.key) (h : Ordered kv ds) :
      Ordered kv' ds :=
  h.imp_of_mem fun hi hj hij heq => by
    rw [hrev _ hi, hrev _ hj]
    exact hij heq

/-- Putting some of the keys back keeps the order just when no record is put back without a
later one that has its timestamp. -/
lemma ordered_putAll_iff (hmem : ∀ d ∈ ds, d.key ∈ kv.keys)
    (hord : Ordered kv ds) {val : List Char → Record} {ks : List (List Char)}
    (hks : ks.Sublist kv.keys) :
    Ordered (kv.putAll val ks) ds ↔
      ds.Pairwise fun i j => i.arrival.nanos = j.arrival.nanos → i.key ∈ ks → j.key ∈ ks := by
  rw [Ordered, pairwise_iff_forall_sublist] at hord
  rw [Ordered, pairwise_iff_forall_sublist, pairwise_iff_forall_sublist]
  refine forall_congr' fun i => forall_congr' fun j => forall_congr' fun hij =>
    forall_congr' fun heq => ?_
  exact revisionOf_putAll_lt_iff hks (hmem i (hij.subset (by simp))) (hmem j (hij.subset (by simp)))
    (hord hij heq)

lemma Even.of_flip?_eq_none (h : st.flip? = none) : s.Even st := fun server runID f hst => by
  rw [h] at hst
  cases hst

lemma flip?_write {server : Server} {op : WriteOp} (hop : op.Valid) {a : Arrival}
    (ha : op.event? = some a.event) : (SeqStep.write server op).flip? = none := by
  rw [SeqStep.flip?, if_pos hop, ha]
  cases a <;> rfl

/-- A flip writes no new record. -/
lemma written_of_flip (ho : s.Outcome st s') (hst : st.flip?.isSome) : s'.written = s.written := by
  cases ho with
  | refused _ | lost _ _ | saved _ _ | flipped _ _ => rfl
  | wrote hop ha _ =>
    rw [flip?_write hop ha] at hst
    cases hst

section Step

variable {w : World} (hkv : w.kv = s.kv) (hacc : w.accepted = s.written) (hs : w.Sound)
  (hkeys : (w.accepted.map Drawn.key).Nodup)

include hacc in
lemma acceptedFor_eq (kind : Kind) (runID : String) :
    w.acceptedFor kind runID = s.writtenFor kind runID := by
  rw [World.acceptedFor, hacc, writtenFor]

include hkv hacc hs hkeys in
/-- A flip settles value records of its own run. -/
lemma settled_own {runID : String} (hsep : ∀ r', w.InUse r' → ¬ Nested runID r') {server : Server}
    {f : StatusFlip} {d : Drawn} (hd : d ∈ s.written)
    (hkey : d.key ∈ settledKeys server f s.kv (runKeys s.kv (stem .value runID))) :
    d.arrival.kind = .value ∧ d.runID = runID := by
  have hlisted := (settledKeys_sublist server f s.kv _).subset hkey
  rw [← hkv, World.mem_runKeys hs hsep, mem_map] at hlisted
  obtain ⟨d', hd', hkey'⟩ := hlisted
  obtain ⟨hmem, hsel⟩ := mem_filter.1 hd'
  rw [← hacc] at hd
  rw [← inj_on_of_nodup_map hkeys hmem hd hkey']
  exact of_decide_eq_true hsel

include hkv hacc hs hkeys in
/-- A step keeps the order just when it is even. -/
lemma inOrder_outcome (h : s.InOrder) (ho : s.Outcome st s')
    (hsep : ∀ r', w.InUse r' → ¬ Nested st.runID r') (hkeys' : (s'.written.map Drawn.key).Nodup) :
    s'.InOrder ↔ s.Even st := by
  cases ho with
  | refused hst => exact iff_of_true h (.of_flip?_eq_none hst)
  | lost hop ha => exact iff_of_true h (.of_flip?_eq_none (flip?_write hop ha))
  | saved server hm =>
    refine iff_of_true (fun kind runID => ordered_congr (fun d hd => ?_) (h kind runID))
      (.of_flip?_eq_none rfl)
    exact revisionOf_put_of_ne metaSuffix_ne_eventKey
  | @wrote server op a hop ha d hd =>
    refine iff_of_true (fun kind runID => ?_) (.of_flip?_eq_none (flip?_write hop ha))
    have hold : ∀ d' ∈ s.writtenFor kind runID,
        (s.kv.put d.key a.record).revisionOf d'.key = s.kv.revisionOf d'.key := by
      intro d' hd'
      rw [map_append, nodup_append] at hkeys'
      refine revisionOf_put_of_ne (Ne.symm ?_)
      exact hkeys'.2.2 _ (mem_map_of_mem (mem_filter.1 hd').1) _ (mem_singleton_self _)
    show Ordered (s.kv.put d.key a.record) ((s.written ++ [d]).filter _)
    rw [filter_append, Ordered, pairwise_append]
    refine ⟨ordered_congr hold (h kind runID), (pairwise_singleton _ d).sublist filter_sublist,
      fun i hi j hj _ => ?_⟩
    obtain rfl : j = d := mem_singleton.1 (mem_filter.1 hj).1
    rw [hold i hi, revisionOf_put_self]
    exact Nat.lt_succ_of_le revisionOf_le_last
  | @flipped server op f hop hf =>
    have hflip : (SeqStep.write server op).flip? = some (server, op.runID, f) := by
      rw [SeqStep.flip?, if_pos hop, hf]
    have hks : (settledKeys server f s.kv (runKeys s.kv (stem .value op.runID))).Sublist
        s.kv.keys :=
      (settledKeys_sublist server f s.kv _).trans filter_sublist
    have hmem (kind : Kind) (runID : String) : ∀ d ∈ s.writtenFor kind runID,
        d.key ∈ s.kv.keys := by
      intro d hd
      rw [← acceptedFor_eq hacc] at hd
      rw [← hkv]
      exact hs.present d (World.mem_acceptedFor hd).1
    have hiff (kind : Kind) (runID : String) :=
      @ordered_putAll_iff s.kv _ (hmem kind runID) (h kind runID) (settledAt f s.kv) _ hks
    simp only [← flipped_kv] at hiff
    constructor
    · intro h' server' runID' f' hst
      rw [hflip] at hst
      cases hst
      exact (hiff .value op.runID).1 (h' .value op.runID)
    · intro heven kind runID
      refine (hiff kind runID).2 (pairwise_iff_forall_sublist.2 fun {i j} hij heq hi => ?_)
      -- only value records of the run are put back
      obtain ⟨hwritten, hsel⟩ := mem_filter.1 (hij.subset mem_cons_self)
      obtain ⟨hkind, hrun⟩ := settled_own hkv hacc hs hkeys hsep hwritten hi
      obtain ⟨rfl, rfl⟩ := of_decide_eq_true hsel
      rw [hkind, hrun] at hij
      exact pairwise_iff_forall_sublist.1 (heven server op.runID f hflip) hij heq hi

end Step

section Run

variable (marshal encode)

/-- At every point of the history, records with equal timestamps are replayed in the order
they were written in; a flip leaves the order of the records as it was; and `CurrentVersion`
picks the committed value that was written last, among those with the latest timestamp. -/
structure Faithful (sts : List SeqStep) : Prop where
  replayed : ∀ pre, pre <+: sts → ∀ d ∈ (new.run marshal encode pre).written,
    Shows (new.run marshal encode pre).kv d.runID
      (writtenOrder ((new.run marshal encode pre).writtenFor .value d.runID))
      (writtenOrder ((new.run marshal encode pre).writtenFor .history d.runID))
  kept : ∀ pre st, pre ++ [st] <+: sts → st.flip?.isSome →
    ∀ d ∈ (new.run marshal encode pre).written,
    ∃ vs hs, Shows (new.run marshal encode pre).kv d.runID vs hs ∧
      Shows (new.run marshal encode (pre ++ [st])).kv d.runID vs hs
  current : ∀ pre, pre <+: sts → ∀ d ∈ (new.run marshal encode pre).written,
    ∃ cv, currentVersion (new.run marshal encode pre).kv d.runID = .ok (some cv) ∧ ∀ task field,
      cv.values.lookup task field =
        ((writtenOrder ((new.run marshal encode pre).writtenFor .value d.runID)).filterMap
          (Drawn.committedAt (new.run marshal encode pre).kv task field)).getLast?

variable {marshal encode} {sts : List SeqStep} (hfit : sts.length < 2 ^ 64)
  (hids : ∀ st ∈ sts, ∀ st' ∈ sts, ¬ Nested st.runID st'.runID)

include hfit hids in
lemma inOrder_iff_even : (∀ pre, pre <+: sts → (new.run marshal encode pre).InOrder) ↔
      ∀ pre st, pre ++ [st] <+: sts → (new.run marshal encode pre).Even st := by
  have hstep {pre : List SeqStep} {st : SeqStep} (hpre : pre ++ [st] <+: sts)
      (h : (new.run marshal encode pre).InOrder) :
      (new.run marshal encode (pre ++ [st])).InOrder ↔ (new.run marshal encode pre).Even st := by
    have hpre' : pre <+: sts := (prefix_append pre [st]).trans hpre
    obtain ⟨w, hkv, hacc, hs, hkeys, hused⟩ := exists_world (hpre'.length_le.trans_lt hfit)
    obtain ⟨w', -, hacc', -, hkeys', -⟩ := exists_world (hpre.length_le.trans_lt hfit)
    rw [hacc', run_concat] at hkeys'
    rw [run_concat]
    refine inOrder_outcome hkv hacc hs hkeys h (.of_step _ st) (fun r' hr' => ?_) hkeys'
    obtain ⟨st', hst', rfl⟩ := mem_map.1 (hused r' hr')
    exact hids st (hpre.subset (by simp)) st' (hpre'.subset hst')
  constructor
  · intro h pre st hpre
    exact (hstep hpre (h pre ((prefix_append pre [st]).trans hpre))).1 (h _ hpre)
  · intro h pre
    induction pre using reverseRecOn with
    | nil => exact fun _ kind runID => .nil
    | append_singleton pre st ih =>
      exact fun hpre => (hstep hpre (ih ((prefix_append pre [st]).trans hpre))).2 (h pre st hpre)

include hfit hids in
/-- The reads of a run in a session, through the world that shows it. -/
lemma reads_written {pre : List SeqStep} (hpre : pre <+: sts)
    (hrun : new.run marshal encode pre = s) {d : Drawn}
    (hd : d ∈ s.written) :
    (Shows s.kv d.runID (writtenOrder (s.writtenFor .value d.runID))
      (writtenOrder (s.writtenFor .history d.runID)) ↔
      ∀ kind, Ordered s.kv (s.writtenFor kind d.runID)) ∧
    (Ordered s.kv (s.writtenFor .value d.runID) →
      ∃ cv, currentVersion s.kv d.runID = .ok (some cv) ∧ ∀ task field,
      cv.values.lookup task field =
        ((writtenOrder (s.writtenFor .value d.runID)).filterMap
          (Drawn.committedAt s.kv task field)).getLast?) := by
  subst hrun
  obtain ⟨w, hkv, hacc, hs, hkeys, hused⟩ :=
    @exists_world marshal encode pre (hpre.length_le.trans_lt hfit)
  rw [← hkv, ← acceptedFor_eq hacc]
  rw [← hacc] at hd
  have hsep : ∀ r', w.InUse r' → ¬ Nested d.runID r' := by
    intro r' hr'
    obtain ⟨st, hst, hrun⟩ := mem_map.1 (hused d.runID (.inl ⟨d, hd, rfl⟩))
    obtain ⟨st', hst', rfl⟩ := mem_map.1 (hused r' hr')
    rw [← hrun]
    exact hids st (hpre.subset hst) st' (hpre.subset hst')
  constructor
  · simp only [← acceptedFor_eq hacc]
    exact World.shows_writtenOrder_iff hs hkeys hsep ⟨d, hd, rfl⟩
  · intro hord
    rw [← (World.replayOrder_eq_iff hs hkeys).2 hord]
    exact World.currentVersion_replayOrder hs hkeys hsep ⟨d, hd, rfl⟩

include hfit hids in
/-- A history is replayed faithfully just when every flip in it is even. -/
theorem nats_faithful_iff_even : Faithful marshal encode sts ↔
      ∀ pre st, pre ++ [st] <+: sts → (new.run marshal encode pre).Even st := by
  rw [← inOrder_iff_even hfit hids]
  constructor
  · intro h pre hpre kind runID
    by_cases hempty : (new.run marshal encode pre).writtenFor kind runID = []
    · rw [hempty]
      exact .nil
    · obtain ⟨d, hd⟩ := exists_mem_of_ne_nil _ hempty
      obtain ⟨hmem, hsel⟩ := mem_filter.1 hd
      obtain ⟨-, rfl⟩ := of_decide_eq_true hsel
      exact (reads_written hfit hids hpre rfl hmem).1.1 (h.replayed pre hpre d hmem) kind
  · intro h
    have hshows (pre : List SeqStep) (hpre : pre <+: sts) (d : Drawn)
        (hd : d ∈ (new.run marshal encode pre).written) :=
      (reads_written hfit hids hpre rfl hd).1.2 fun kind => h pre hpre kind d.runID
    refine ⟨hshows, fun pre st hpre hst d hd => ?_, fun pre hpre d hd => ?_⟩
    · have hpre' : pre <+: sts := (prefix_append pre [st]).trans hpre
      have hwritten : (new.run marshal encode (pre ++ [st])).written =
          (new.run marshal encode pre).written := by
        rw [run_concat]
        exact written_of_flip (.of_step _ st) hst
      refine ⟨_, _, hshows pre hpre' d hd, ?_⟩
      have hafter := hshows (pre ++ [st]) hpre d (hwritten ▸ hd)
      simp only [writtenFor, hwritten] at hafter ⊢
      exact hafter
    · exact (reads_written hfit hids hpre rfl hd).2 (h pre hpre .value d.runID)

end Run

/-- A server that takes every put. -/
def takesAll : Server := fun _ => .ok ()

/-- Two tasks of run `a` write a value each, with the same timestamp. -/
def sameInstant : List SeqStep :=
  [.write takesAll (writeAt 1 "1"), .write takesAll { writeAt 1 "2" with
      valueWrite := some ⟨"u", "e", "f", bytesOf "2", ⟨1, 0⟩⟩ }]

/-- The values `FullHistory` shows after a history. -/
def valuesAfter (sts : List SeqStep) : Except String (Option (List (List UInt8))) :=
  (fullHistory (new.run (fun _ => .ok ()) (fun _ => .ok ()) sts).kv "a").map fun o =>
    o.map fun fh => fh.values.map fun r => r.value

/-- When the task that has written first is committed, its value moves behind the other. -/
theorem nats_flip_swaps : valuesAfter sameInstant = .ok (some [bytesOf "1", bytesOf "2"]) ∧
      valuesAfter (sameInstant ++ [.write takesAll (commitOp "a" "t")]) =
        .ok (some [bytesOf "2", bytesOf "1"]) := by
  decide +kernel

/-- A value is written and committed. -/
def writeCommit : List SeqStep :=
  [.write takesAll (writeAt 1 "1"), .write takesAll (commitOp "a" "t")]

/-- A write and its commit. -/
theorem nats_faithful_writeCommit : Faithful (fun _ => .ok ()) (fun _ => .ok ()) writeCommit := by
  refine (nats_faithful_iff_even (by decide) ?_).2 fun pre st hpre server runID f hst => ?_
  · intro st hst st' hst'
    have hrun : ∀ st ∈ writeCommit, st.runID = "a" := by
      rw [writeCommit, forall_mem_cons, forall_mem_singleton]
      exact ⟨rfl, rfl⟩
    rw [hrun st hst, hrun st' hst']
    exact World.not_nested_self "a"
  · -- there is at most one record before the flip
    rcases pre with _ | ⟨st₁, _ | ⟨st₂, pre⟩⟩
    · exact .nil
    · obtain ⟨rfl, -⟩ := cons_prefix_cons.1 hpre
      exact (pairwise_singleton _ World.firstDrawn).sublist filter_sublist
    · exact absurd hpre.length_le (by simp [writeCommit])

end Session

end Nats

end Blkit
