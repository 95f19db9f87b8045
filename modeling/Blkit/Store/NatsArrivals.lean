import Blkit.Store.NatsWorld

/-!
# Accepted records and their keys

A handle keeps its own records apart by the number it draws for each, but two handles draw
the same numbers.  Two records are stored under one key exactly when they agree in run,
kind, nanoseconds and number; when no two accepted records do, the full history of a run
consists of the records accepted for it, each once.  That also takes run ids of which none
is another followed by `.v` or `.h`: what is listed for the shorter one would contain the
keys of the longer one.
-/

namespace Blkit

open List

namespace Nats

/-- The arrival as it is read back. -/
def Arrival.kept : Arrival → Arrival
  | .value w => .value w.kept
  | .history h => .history h.kept

/-- No two records put through different handles agree in run, kind, nanoseconds and the
number their handles have drawn for them. -/
def NoClash (accepted : List Drawn) : Prop :=
  accepted.Pairwise fun d d' => d.handle ≠ d'.handle →
    ¬ (d.runID = d'.runID ∧ d.arrival.kind = d'.arrival.kind ∧ d.arrival.nanos = d'.arrival.nanos ∧
      d.n = d'.n)

namespace World

variable {w : World}

/-- The records of a kind that were accepted for a run. -/
def acceptedFor (w : World) (kind : Kind) (runID : String) : List Drawn :=
  w.accepted.filter fun d => d.arrival.kind = kind ∧ d.runID = runID

/-- The run has an accepted record, or metadata. -/
def InUse (w : World) (runID : String) : Prop :=
  (∃ d ∈ w.accepted, d.runID = runID) ∨
    ∃ k e m, w.kv.get k = some e ∧ e.value = .metadata m ∧ m.runID = runID

/-- The accepted records lie under different keys, and the full history of a run lists the
records accepted for it, each once. -/
def KeepsAll (w : World) : Prop :=
  (w.accepted.map Drawn.key).Nodup ∧
    ∀ d ∈ w.accepted, ∃ fh, fullHistory w.kv d.runID = .ok (some fh) ∧
      (fh.values.map fun r => Arrival.value r.toValueWrite).Perm
        ((w.acceptedFor .value d.runID).map fun d => d.arrival.kept) ∧
      (fh.history.map fun r => Arrival.history r.toHistoryEntry).Perm
        ((w.acceptedFor .history d.runID).map fun d => d.arrival.kept)

/-! ## Keys -/

lemma key_eq_iff {d d' : Drawn} (hd : d.n < 2 ^ 64) (hd' : d'.n < 2 ^ 64) :
    d.key = d'.key ↔ d.runID = d'.runID ∧ d.arrival.kind = d'.arrival.kind ∧
      d.arrival.nanos = d'.arrival.nanos ∧ d.n = d'.n := by
  rw [Drawn.key, Drawn.key, eventKey_inj, Nat.mod_eq_of_lt hd, Nat.mod_eq_of_lt hd']
  tauto

lemma nodup_keys_iff (hn : w.Numbers) (hfit : ∀ h, w.drawn h < 2 ^ 64) :
    (w.accepted.map Drawn.key).Nodup ↔ NoClash w.accepted := by
  have hlt (d : Drawn) (hd : d ∈ w.accepted) : d.n < 2 ^ 64 :=
    (hn.accepted_le d hd).trans_lt (hfit d.handle)
  rw [List.Nodup, pairwise_map]
  constructor
  · intro h
    refine h.imp_of_mem fun {d d'} hd hd' hne _ hsame => hne ?_
    exact (key_eq_iff (hlt d hd) (hlt d' hd')).2 hsame
  · intro h
    refine (h.and hn.accepted_distinct).imp_of_mem fun {d d'} hd hd' hdd' hkey => ?_
    have hsame := (key_eq_iff (hlt d hd) (hlt d' hd')).1 hkey
    by_cases hh : d.handle = d'.handle
    · exact hdd'.2 hh hsame.2.2.2
    · exact hdd'.1 hh hsame

section Reading

variable (hs : w.Sound) (hkeys : (w.accepted.map Drawn.key).Nodup) {runID : String}
  (hsep : ∀ r', w.InUse r' → ¬ Nested runID r')

include hs hkeys in
/-- Under the key of an accepted record lies that record. -/
lemma get_key {d : Drawn} (hd : d ∈ w.accepted) :
    ∃ e, w.kv.get d.key = some e ∧ d.arrival.Holds e.value := by
  obtain ⟨e, he⟩ := Bucket.mem_keys.1 (hs.present d hd)
  have hkey : e.key = d.key := (Bucket.get_eq_some_iff.1 he).2
  refine ⟨e, he, ?_⟩
  rcases hs.backed _ e he with ⟨m, -, hm⟩ | ⟨d', hd', hdk, hholds⟩
  · exact absurd (hm.symm.trans hkey) metaSuffix_ne_eventKey
  · rwa [inj_on_of_nodup_map hkeys hd hd' (hkey.symm.trans hdk.symm)]

include hs hsep in
/-- What is listed for a run is the keys of the records accepted for it. -/
lemma mem_runKeys {kind : Kind} {k : List Char} :
    k ∈ runKeys w.kv (stem kind runID) ↔ k ∈ (w.acceptedFor kind runID).map Drawn.key := by
  rw [runKeys, mem_filter, isPrefixOf_iff_prefix, mem_map]
  constructor
  · rintro ⟨hk, hstem⟩
    obtain ⟨e, he⟩ := Bucket.mem_keys.1 hk
    have hkey : e.key = k := (Bucket.get_eq_some_iff.1 he).2
    rcases hs.backed k e he with ⟨m, hm, hmk⟩ | ⟨d, hd, hdk, -⟩
    · have hnest := hsep m.runID (.inr ⟨k, e, m, he, hm, rfl⟩)
      rw [← hkey, hmk] at hstem
      exact absurd hstem (stem_not_isPrefix_metaSuffix hnest)
    · have hnest := hsep d.runID (.inl ⟨d, hd, rfl⟩)
      rw [← hkey, ← hdk] at hstem
      obtain ⟨hkind, hr⟩ :=
        stem_inj ((stem_isPrefix_append (letter_not_mem_tail _ _ _) hstem).resolve_right hnest)
      exact ⟨d, mem_filter.2 ⟨hd, decide_eq_true ⟨hkind.symm, hr.symm⟩⟩, hdk.trans hkey⟩
  · rintro ⟨d, hd, rfl⟩
    obtain ⟨hacc, hsel⟩ := mem_filter.1 hd
    obtain ⟨rfl, rfl⟩ := of_decide_eq_true hsel
    exact ⟨hs.present d hacc, prefix_append _ _⟩

include hs hkeys hsep in
/-- The keys that are listed for a run, as keys of accepted records. -/
lemma runKeys_eq (kind : Kind) :
    ∃ ds : List Drawn, runKeys w.kv (stem kind runID) = ds.map Drawn.key ∧
    ds.Perm (w.acceptedFor kind runID) := by
  have hperm : (runKeys w.kv (stem kind runID)).Perm
      ((w.acceptedFor kind runID).map Drawn.key) := by
    refine (perm_ext_iff_of_nodup ?_ ?_).2 fun k => mem_runKeys hs hsep
    · exact Bucket.nodup_keys.filter _
    · exact hkeys.sublist (filter_sublist.map _)
  exact (congrFun₂ (eq_map_comp_perm Drawn.key) _ _).mpr hperm

lemma mem_acceptedFor {kind : Kind} {d : Drawn} (hd : d ∈ w.acceptedFor kind runID) :
    d ∈ w.accepted ∧ d.arrival.kind = kind := by
  obtain ⟨hd, hsel⟩ := mem_filter.1 hd
  exact ⟨hd, (of_decide_eq_true hsel).1⟩

include hs hkeys in
lemma loadValue_key {d : Drawn} (hd : d ∈ w.acceptedFor .value runID) :
    ∃ r, loadValue w.kv d.key = .ok r ∧ Arrival.value r.toValueWrite = d.arrival.kept := by
  obtain ⟨hd, hkind⟩ := mem_acceptedFor hd
  obtain ⟨e, he, hholds⟩ := get_key hs hkeys hd
  rw [loadValue, he]
  cases ha : d.arrival with
  | history h => rw [ha] at hkind; cases hkind
  | value v =>
    rw [ha] at hholds
    obtain ⟨st, hst, hv⟩ := hholds
    refine ⟨ValueRecord.kept ⟨v, st, e.revision⟩, ?_, rfl⟩
    simp only [hv, Record.asValue]
    exact ValueRec.read_toRec hst v e.revision

include hs hkeys in
lemma loadEntry_key {d : Drawn} (hd : d ∈ w.acceptedFor .history runID) :
    ∃ r, loadEntry w.kv d.key = .ok r ∧ Arrival.history r.toHistoryEntry = d.arrival.kept := by
  obtain ⟨hd, hkind⟩ := mem_acceptedFor hd
  obtain ⟨e, he, hholds⟩ := get_key hs hkeys hd
  rw [loadEntry, he]
  cases ha : d.arrival with
  | value v => rw [ha] at hkind; cases hkind
  | history h =>
    rw [ha] at hholds
    have hv : e.value = .history h.toRec := hholds
    refine ⟨HistoryRecord.kept ⟨h, e.revision⟩, ?_, rfl⟩
    simp only [hv, Record.asHistory]
    rfl

/-- A loop that loads accepted records. -/
lemma mapM_keys {β : Type} {load : List Char → Except String β} {asArrival : β → Arrival}
    {ds : List Drawn} (hload : ∀ d ∈ ds, ∃ r, load d.key = .ok r ∧ asArrival r = d.arrival.kept) :
    ∃ rs, (ds.map Drawn.key).mapM load = .ok rs ∧ rs.map asArrival = ds.map fun d =>
      d.arrival.kept := by
  induction ds with
  | nil => exact ⟨[], rfl, rfl⟩
  | cons d ds ih =>
    rw [forall_mem_cons] at hload
    obtain ⟨⟨r, hr, hkept⟩, hrest⟩ := hload
    obtain ⟨rs, hrs, hmap⟩ := ih hrest
    refine ⟨r :: rs, ?_, ?_⟩
    · rw [map_cons, Fallible.mapM_cons, hr, hrs]
      rfl
    · rw [map_cons, hkept, hmap, map_cons]

include hs in
lemma runMeta_of_accepted (hrun : ∃ d ∈ w.accepted, d.runID = runID) : (runMeta w.kv runID).2 := by
  rw [runMeta]
  split
  · rfl
  · obtain ⟨d, hd, rfl⟩ := hrun
    rw [Bool.not_eq_true', isEmpty_eq_false_iff_exists_mem]
    refine ⟨d.key, mem_filter.2 ⟨hs.present d hd, ?_⟩⟩
    rw [ isPrefixOf_iff_prefix, Drawn.key, eventKey, stem]
    simp

include hs hkeys hsep in
/-- What the two reads of a run load and sort. -/
lemma reads_accepted (hrun : ∃ d ∈ w.accepted, d.runID = runID) :
    ∃ (vs es : List Drawn) (values : List ValueRecord) (history : List HistoryRecord),
      (vs.Perm (w.acceptedFor .value runID) ∧
      (vs.map Drawn.key).mapM (loadValue w.kv) = .ok values ∧
        (values.map fun r => Arrival.value r.toValueWrite) = vs.map fun d => d.arrival.kept) ∧
      (es.Perm (w.acceptedFor .history runID) ∧
        (es.map Drawn.key).mapM (loadEntry w.kv) = .ok history ∧
        (history.map fun r => Arrival.history r.toHistoryEntry) = es.map fun d => d.arrival.kept) ∧
      fullHistory w.kv runID = .ok (some
        ⟨(runMeta w.kv runID).1, sortValueRecords values, sortHistoryRecords history⟩) ∧
      currentVersion w.kv runID = .ok (some
        ⟨(runMeta w.kv runID).1, (sortValueRecords values).foldl FieldValues.put fun _ =>
          none⟩) := by
  obtain ⟨vs, hvs, hvperm⟩ := runKeys_eq hs hkeys hsep .value
  obtain ⟨es, hes, heperm⟩ := runKeys_eq hs hkeys hsep .history
  obtain ⟨values, hvalues, hvmap⟩ :=
    mapM_keys fun d hd => loadValue_key hs hkeys (hvperm.mem_iff.1 hd)
  obtain ⟨history, hhistory, hemap⟩ :=
    mapM_keys fun d hd => loadEntry_key hs hkeys (heperm.mem_iff.1 hd)
  have hfound := runMeta_of_accepted hs hrun
  refine ⟨vs, es, values, history, ⟨hvperm, hvalues, hvmap⟩, ⟨heperm, hhistory, hemap⟩, ?_, ?_⟩
  · rw [fullHistory, hfound, loadValues, hvs, hvalues, hes, hhistory]
    rfl
  · rw [currentVersion, hfound, loadValues, hvs, hvalues]
    rfl

end Reading

/-! ## Runs that are nested -/

/-- A full history has a record for every key that is listed. -/
lemma length_of_fullHistory {kv : KV} {runID : String} {fh : FullHistory}
    (h : fullHistory kv runID = .ok (some fh)) :
    fh.values.length = (runKeys kv (stem .value runID)).length ∧
      fh.history.length = (runKeys kv (stem .history runID)).length := by
  rw [fullHistory] at h
  split at h
  · cases h
  · obtain ⟨values, hvalues, h⟩ := Fallible.bind_eq_ok.1 h
    obtain ⟨history, hhistory, h⟩ := Fallible.bind_eq_ok.1 h
    obtain ⟨recs, hrecs, hsorted⟩ := Fallible.bind_eq_ok.1 hvalues
    cases h
    cases hsorted
    constructor
    · exact (sortReplay_perm _ _ recs).length_eq.trans (Fallible.mapM_eq_ok.1 hrecs).length_eq.symm
    · exact (sortReplay_perm _ _ history).length_eq.trans
        (Fallible.mapM_eq_ok.1 hhistory).length_eq.symm

lemma not_nested_self (r : String) : ¬ Nested r r := by
  rintro ⟨kind, h⟩
  have := h.length_le
  simp only [stem, length_append, length_cons, length_nil] at this
  omega

/-- The key of something in use under the name of a run. -/
lemma exists_key_of_inUse (hs : w.Sound) {r : String} (hr : w.InUse r) :
    ∃ k ∈ w.kv.keys, r.toList ++ ['.'] <+: k ∧ ∀ d ∈ w.accepted, d.key = k → d.runID = r := by
  rcases hr with ⟨d, hd, rfl⟩ | ⟨k, e, m, he, hm, rfl⟩
  · refine ⟨d.key, hs.present d hd, ?_, fun d' _ hkey => (eventKey_inj.1 hkey).2.1⟩
    rw [Drawn.key, eventKey, stem]
    simp
  · have hkey : e.key = k := (Bucket.get_eq_some_iff.1 he).2
    refine ⟨k, Bucket.mem_keys.2 ⟨e, he⟩, ?_⟩
    rcases hs.backed k e he with ⟨m', hm', hk⟩ | ⟨d, -, -, hholds⟩
    · obtain rfl : m' = m := by
        rw [hm, Record.metadata.injEq] at hm'
        exact hm'.symm
      rw [← hkey, hk]
      refine ⟨?_, fun d _ hdk => absurd hdk.symm metaSuffix_ne_eventKey⟩
      rw [metaSuffix_eq_append]
      simp
    · rw [hm] at hholds
      cases ha : d.arrival with
      | value v =>
        rw [ha] at hholds
        obtain ⟨st, -, hst⟩ := hholds
        cases hst
      | history h =>
        rw [ha] at hholds
        cases hholds

/-- A run that is nested in another adds a key to what is listed for the other. -/
lemma length_lt_of_nested (hs : w.Sound) (hkeys : (w.accepted.map Drawn.key).Nodup) {r r' : String}
    (hr' : w.InUse r') (hnest : Nested r r') :
    ∃ kind, (w.acceptedFor kind r).length < (runKeys w.kv (stem kind r)).length := by
  obtain ⟨kind, hstem⟩ := hnest
  obtain ⟨k, hk, hstart, howner⟩ := exists_key_of_inUse hs hr'
  refine ⟨kind, ?_⟩
  have hnew : k ∉ (w.acceptedFor kind r).map Drawn.key := by
    intro hmem
    obtain ⟨d, hd, hdk⟩ := mem_map.1 hmem
    obtain ⟨hd, hsel⟩ := mem_filter.1 hd
    have hrun : r = r' := (of_decide_eq_true hsel).2.symm.trans (howner d hd hdk)
    exact not_nested_self r ⟨kind, hrun ▸ hstem⟩
  have hnodup : (k :: (w.acceptedFor kind r).map Drawn.key).Nodup :=
    nodup_cons.2 ⟨hnew, hkeys.sublist (filter_sublist.map _)⟩
  have hsubset : k :: (w.acceptedFor kind r).map Drawn.key ⊆ runKeys w.kv (stem kind r) := by
    intro k' hk'
    rw [runKeys, mem_filter, isPrefixOf_iff_prefix]
    rcases mem_cons.1 hk' with rfl | hk'
    · exact ⟨hk, hstem.trans hstart⟩
    · obtain ⟨d, hd, rfl⟩ := mem_map.1 hk'
      obtain ⟨hacc, hsel⟩ := mem_filter.1 hd
      obtain ⟨rfl, rfl⟩ := of_decide_eq_true hsel
      exact ⟨hs.present d hacc, prefix_append _ _⟩
  have hlength := (subperm_of_subset hnodup hsubset).length_le
  rw [length_cons, length_map] at hlength
  exact hlength

/-- No run in use is nested in a run with an accepted record. -/
def Apart (w : World) : Prop := ∀ d ∈ w.accepted, ∀ r', w.InUse r' → ¬ Nested d.runID r'

lemma KeepsAll.apart (hs : w.Sound) (h : w.KeepsAll) : w.Apart := by
  intro d hd r' hr' hnest
  obtain ⟨hkeys, hall⟩ := h
  obtain ⟨fh, hfh, hvalues, hhistory⟩ := hall d hd
  obtain ⟨kind, hlt⟩ := length_lt_of_nested hs hkeys hr' hnest
  obtain ⟨hv, hh⟩ := length_of_fullHistory hfh
  have hvlen := hvalues.length_eq
  have hhlen := hhistory.length_eq
  rw [length_map, length_map] at hvlen hhlen
  cases kind with
  | value | history => omega

/-- Over all interleavings, every accepted record is kept, and found once in the full
history of its run, exactly when no two of different handles clash and no run is nested in
another. -/
theorem nats_keepsAll_iff {as : List Action} (h : new.exec as = some w)
    (hfit : ∀ h, w.drawn h < 2 ^ 64) : w.KeepsAll ↔ NoClash w.accepted ∧ w.Apart := by
  rw [← nodup_keys_iff (numbers_exec h) hfit]
  constructor
  · exact fun hkeeps => ⟨hkeeps.1, hkeeps.apart (sound_exec h)⟩
  · rintro ⟨hkeys, hapart⟩
    refine ⟨hkeys, fun d hd => ?_⟩
    obtain ⟨vs, es, values, history, ⟨hvperm, -, hvmap⟩, ⟨heperm, -, hemap⟩, hfh, -⟩ :=
      reads_accepted (sound_exec h) hkeys (hapart d hd) ⟨d, hd, rfl⟩
    refine ⟨_, hfh, ?_, ?_⟩
    · exact (((sortReplay_perm _ _ values).map _).trans (.of_eq hvmap)).trans (hvperm.map _)
    · exact (((sortReplay_perm _ _ history).map _).trans (.of_eq hemap)).trans (heperm.map _)

/-- Two handles write to one run with one timestamp. -/
def twoHandles : List Action :=
  [.writeBatch 0 [writeAt 1 "1"], .writeBatch 1 [writeAt 1 "2"],
    .move 0, .move 1, .move 0, .move 1]

/-- Both writes are accepted under one key, and one of them is left. -/
theorem nats_handles_clash :
    ∃ w, new.exec twoHandles = some w ∧ w.accepted.length = 2 ∧ ¬ (w.accepted.map Drawn.key).Nodup ∧
      (fullHistory w.kv "a").map (fun o => o.map fun fh => fh.values.length) = .ok (some 1) := by
  refine ⟨_, rfl, rfl, ?_, ?_⟩
  all_goals decide +kernel

/-- Two handles write to one run with different timestamps. -/
def apartHandles : List Action :=
  [.writeBatch 0 [writeAt 1 "1"], .writeBatch 1 [writeAt 2 "2"],
    .move 0, .move 1, .move 0, .move 1]

/-- The first write of the first handle. -/
def firstDrawn : Drawn := ⟨0, 1, "a", .value ⟨"t", "e", "f", bytesOf "1", ⟨1, 0⟩⟩⟩

/-- The first write of the second handle. -/
def secondDrawn : Drawn := ⟨1, 1, "a", .value ⟨"t", "e", "f", bytesOf "2", ⟨2, 0⟩⟩⟩

/-- Both writes are kept. -/
theorem nats_keepsAll_two_handles :
    ∃ w, new.exec apartHandles = some w ∧ w.accepted.length = 2 ∧ w.KeepsAll := by
  let d := firstDrawn
  let d' := secondDrawn
  let w : World := ⟨(Bucket.empty.put d.key d.arrival.record).put d'.key d'.arrival.record,
    Function.update (Function.update (fun _ => 0) 0 1) 1
      1, [(0, .ready []), (1, .ready [])], [d, d']⟩
  have h : new.exec apartHandles = some w := rfl
  refine ⟨w, h, rfl, (nats_keepsAll_iff h fun n => ?_).2 ⟨?_, ?_⟩⟩
  · show Function.update (Function.update (fun _ => 0) 0 1) 1 1 n < 2 ^ 64
    rw [Function.update_apply, Function.update_apply]
    split
    · decide
    · split <;> decide
  · exact pairwise_pair.2 fun _ hclash => absurd hclash.2.2.1 (by decide)
  · have hrun (r : String) (hr : w.InUse r) : r = "a" := by
      rcases hr with ⟨x, hx, rfl⟩ | ⟨k, e, m, he, hm, -⟩
      · rcases mem_pair.1 hx with rfl | rfl <;> rfl
      · change ((Bucket.empty.put d.key d.arrival.record).put d'.key d'.arrival.record).get k =
          some e at he
        rw [Bucket.get_put, Bucket.get_put] at he
        split_ifs at he
        all_goals cases he
        all_goals cases hm
    intro x hx r' hr' hnest
    rw [hrun x.runID (.inl ⟨x, hx, rfl⟩), hrun r' hr'] at hnest
    exact not_nested_self "a" hnest

end World

end Nats

end Blkit
