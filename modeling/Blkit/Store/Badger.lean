import Blkit.Store.Latest
import Blkit.Store.Readback

/-!
# The Badger state store

`stores/badger/store.go`, with the records and keys of the Pebble store.  Arrival
numbers are drawn from a `badger.Sequence`, which gives out increasing numbers and
skips some: those a failed transaction has drawn, and those of a lease that is not used
up.

`CurrentVersion` folds the records in the order of their keys, which show timestamps
as unsigned numbers, and `FullHistory` sorts them by signed time.  Both read whatever
lies under the keys of the run.  The two orders disagree about timestamps before 1970,
which come last among the keys, and about records of runs whose ids run into each other.
-/

namespace Blkit

open List GoTime

/-! ## The value that is listed last -/

/-- The last committed write of a task and a field. -/
def lastCommitted (qs : List (ValueWrite × ValueStatus)) (task field : String) :
    Option (ValueWrite × ValueStatus) :=
  lastAt (fun q => (q.1.taskID, q.1.field)) (qs.filter fun q => q.2 = .committed) (task, field)

lemma lastCommitted_map_bare (rs : List ValueRecord) (task field : String) :
    (lastCommitted (rs.map ValueRecord.bare) task field).map (fun q => q.1.value) =
      (lastAt ValueRecord.place (rs.filter fun r => r.status = .committed) (task, field)).map
        fun r => r.value := by
  rw [lastCommitted, filter_map, lastAt_map, Option.map_map]
  rfl

/-! ## Signed and unsigned time -/

lemma GoTime.unsigned_eq (t : GoTime) :
    (t.unsigned : Int) = if t.nanos < 0 then t.nanos + 2 ^ 64 else t.nanos := by
  obtain ⟨hlo, hhi⟩ := t.nanos_range
  rw [unsigned]
  generalize t.nanos = x at hlo hhi
  split <;> omega

namespace Journal

variable (J : Journal) (runID task field : String)

/-- The value records that lie under the keys of a run. -/
def seen : List (String × ValueRecord) :=
  J.values.filter fun q => (runStem 118 runID).isPrefixOf (valueKey q)

/-- Those that are committed, of a task and a field. -/
def committed : List (String × ValueRecord) :=
  (J.seen runID).filter fun q => q.2.status = .committed ∧ q.2.place = (task, field)

/-- By signed time, then by arrival. -/
def timePlace (q : String × ValueRecord) : ℤ ×ₗ ℕ := toLex (q.2.timestamp.nanos, q.2.seq)

/-- For each task and field the committed record with the greatest key and the latest one
have the same value. -/
def LastAgree : Prop :=
  ∀ task field x y, IsLast valueKey (J.committed runID task field) x →
    IsLast timePlace (J.committed runID task field) y → x.2.value = y.2.value

/-- Where a task and field have committed writes from before and from after 1970, the
last of each kind have one value. -/
def Settled1970 : Prop :=
  ∀ task field x y,
    IsLast timePlace ((J.committed runID task field).filter fun q => q.2.timestamp.nanos < 0) x →
    IsLast timePlace ((J.committed runID task field).filter fun q => 0 ≤ q.2.timestamp.nanos) y →
    x.2.value = y.2.value

end Journal

namespace Journal

variable {J : Journal} {c : Option Nat} {db : Database} {n : Nat} {runID : String}

section Seen

variable (h : J.Represents c db) (hn : J.Numbered n) (hlt : n ≤ 2 ^ 64)

include hn hlt in
/-- Different records have different keys. -/
lemma valueKey_lt_of_place {a b : String × ValueRecord} (ha : a ∈ J.values) (hb : b ∈ J.values)
    (hab : placeBy valueKey (fun q => q.2.seq) a < placeBy valueKey (fun q => q.2.seq) b) :
    valueKey a < valueKey b := by
  rcases placeBy_lt.1 hab with hkey | ⟨hkey, hseq⟩
  · exact hkey
  · obtain rfl := eq_of_valueKey hn hlt ha hb hkey
    exact absurd hseq (lt_irrefl _)

include h hn hlt in
/-- What a reader of a run finds: the records under its keys, by key. -/
lemma scan_seen : db.scan (fun k => runStem 118 runID <+: k) =
    (stableSort valueKey (J.seen runID)).map fun q =>
      (valueKey q, .value (q.2.toValueWrite.toRec q.2.status)) := by
  refine KeyStore.scan_eq_stableSort (fun q => q.2.seq) (hn.values.filter _) ?_ ?_
  · intro a ha b hb hab
    exact valueKey_lt_of_place hn hlt (mem_filter.1 ha).1 (mem_filter.1 hb).1 hab
  · intro k x
    constructor
    · rintro ⟨hget, t, rfl⟩
      obtain ⟨q, hq, hk, rfl⟩ := ((h _ x).1 hget).inv
      exact ⟨q, mem_filter.2 ⟨hq, isPrefixOf_iff_prefix.2 ⟨t, hk⟩⟩, hk.symm, rfl⟩
    · rintro ⟨q, hq, rfl, rfl⟩
      obtain ⟨hq, hstem⟩ := mem_filter.1 hq
      exact ⟨(h _ _).2 (.value hq), isPrefixOf_iff_prefix.1 hstem⟩

include h in
/-- Only the records decide whether a run without metadata exists. -/
lemma runMeta_seen (runID : String) {iter : Database → List UInt8 → List (List UInt8 × Stored)}
    (hiter : ∀ db p, iter db p = db.scan fun k => p <+: k) :
    ∃ m exist, Keyed.runMeta iter db runID = .ok (m, exist) ∧
      (exist = false → db.scan (fun k => runStem 118 runID <+: k) = []) := by
  rw [Keyed.runMeta, get_metaKey h]
  cases J.metas runID with
  | some m => exact ⟨m, true, rfl, by simp⟩
  | none =>
    refine ⟨_, _, rfl, fun hnone => ?_⟩
    simp only [any_cons, Bool.or_eq_false_iff, Bool.not_eq_false', List.isEmpty_iff, hiter] at hnone
    exact hnone.1

include h in
/-- The history under the keys of a run can be read. -/
lemma readHistory_ok (runID : String)
    {iter : Database → List UInt8 → List (List UInt8 × Stored)}
    (hiter : ∀ db p, iter db p = db.scan fun k => p <+: k) :
    ∃ hs, (iter db (runStem 104 runID)).mapM Keyed.readHistory = .ok hs := by
  cases hres : (iter db (runStem 104 runID)).mapM Keyed.readHistory with
  | ok hs => exact ⟨hs, rfl⟩
  | error e =>
    obtain ⟨⟨k, x⟩, hx, e, hread⟩ := Fallible.mapM_eq_error.1 ⟨e, hres⟩
    rw [hiter] at hx
    obtain ⟨hget, t, rfl⟩ := KeyStore.mem_scan.1 hx
    obtain ⟨q, hq, hk, rfl⟩ := ((h _ x).1 hget).inv
    cases hread

include h hn hlt in
/-- The two reads of a run: both fail to find it, and then there are no records under its keys;
or the one folds these by key and the other lists them by key. -/
lemma reads_seen (runID : String) (hnamed : J.Named)
    {iter : Database → List UInt8 → List (List UInt8 × Stored)}
    (hiter : ∀ db p, iter db p = db.scan fun k => p <+: k) : ∃ m exist history,
      (exist = false → J.seen runID = []) ∧
      Keyed.currentVersion iter db runID = .ok (if exist then some ⟨m,
        ((stableSort valueKey (J.seen runID)).map Prod.snd).foldl FieldValues.put fun _ => none⟩
        else none) ∧
      Keyed.fullHistory iter db runID = .ok (if exist then some ⟨m,
        (stableSort valueKey (J.seen runID)).map fun q => q.2.kept, history⟩ else none) := by
  obtain ⟨m, exist, hmeta, hexist⟩ := runMeta_seen h runID hiter
  obtain ⟨history, hhistory⟩ := readHistory_ok h runID hiter
  have hmem {q : String × ValueRecord} (hq : q ∈ stableSort valueKey (J.seen runID)) : q ∈
      J.values :=
    (mem_filter.1 (mem_stableSort.1 hq)).1
  refine ⟨m, exist, history, fun hnone => ?_, ?_, ?_⟩
  · have hempty := hexist hnone
    rw [scan_seen h hn hlt, map_eq_nil_iff] at hempty
    exact List.Perm.nil_eq (hempty ▸ stableSort_perm valueKey _) ▸ rfl
  · rw [Keyed.currentVersion, hmeta, Fallible.ok_bind]
    cases exist with
    | false => rfl
    | true =>
      have hfold : (iter db (runStem 118 runID)).foldlM (fun vs e => Keyed.foldValue vs e.2)
          (fun _ => none) = .ok (((stableSort valueKey (J.seen runID)).map Prod.snd).foldl
            FieldValues.put fun _ => none) := by
        rw [hiter, scan_seen h hn hlt, foldl_map]
        refine Fallible.foldlM_map_ok (fun q hq vs => ?_) _
        rw [Keyed.foldValue, FieldValues.putRec_toRec (hnamed q (hmem hq))]
      simp only [if_true, hfold, Fallible.ok_bind]
      rfl
  · rw [Keyed.fullHistory, hmeta, Fallible.ok_bind]
    cases exist with
    | false => rfl
    | true =>
      have hvalues : (iter db (runStem 118 runID)).mapM Keyed.readValue =
          .ok ((stableSort valueKey (J.seen runID)).map fun q => q.2.kept) := by
        rw [hiter, scan_seen h hn hlt]
        refine Fallible.mapM_map_ok fun q hq => ?_
        rw [Keyed.readValue, valueKey, splitEventKey_eventKey (seq_lt hn hlt (hmem hq))]
        exact ValueRec.read_toRec (hnamed q (hmem hq)) _ _
      simp only [if_true, hvalues, hhistory, Fallible.ok_bind]
      rfl

end Seen

lemma mem_committed_iff {l : List (String × ValueRecord)} (hl : l.Perm (J.seen runID))
    {task field : String} {q : String × ValueRecord} : q ∈ J.committed runID task field ↔
      q ∈ l.filter (fun q => q.2.status = .committed) ∧ q.2.place = (task, field) := by
  rw [committed, mem_filter, mem_filter, hl.mem_iff, decide_eq_true_eq,
    decide_eq_true_eq, and_assoc]

/-- `FullHistory` lists the records by signed time and arrival. -/
lemma sortValueRecords_seen (hn : J.Numbered n) :
    sortValueRecords ((stableSort valueKey (J.seen runID)).map fun q => q.2.kept) =
      (stableSort (fun q => q.2.timestamp.nanos) (J.seen runID)).map fun q => q.2.kept := by
  refine sortReplay_of_perm (((stableSort_perm _ _).trans (stableSort_perm _ _).symm).map _) ?_
  rw [pairwise_map]
  exact stableSort_increasing _ (hn.values.filter _)

/-- In a list of the records under the keys of a run that is sorted by some key, the last committed
record of a task and field is the one with the greatest key. -/
lemma lastAt_iff_isLast {K : Type} [LinearOrder K] {key : String × ValueRecord → K}
    {l : List (String × ValueRecord)} (hl : l.Perm (J.seen runID))
    (hsorted : l.Pairwise fun a b => key a < key b) {task field : String}
    {q : String × ValueRecord} :
    lastAt (fun q => q.2.place) (l.filter fun q => q.2.status = .committed) (task, field) = some q ↔
      IsLast key (J.committed runID task field) q := by
  refine lastAt_eq_some_iff_isLast ((hsorted.imp le_of_lt).filter _) (fun x hx y hy heq => ?_)
    fun q => mem_committed_iff hl
  exact eq_of_increasing hsorted (mem_of_mem_filter hx) (mem_of_mem_filter hy) heq

/-- The two reads name one value for each task and field. -/
lemma same_last_iff (hn : J.Numbered n) (hlt : n ≤ 2 ^ 64) : (∀ task field,
      FieldValues.lookup (((stableSort valueKey (J.seen runID)).map Prod.snd).foldl FieldValues.put
          fun _ => none) task field =
        (lastCommitted ((sortValueRecords ((stableSort valueKey (J.seen runID)).map
          fun q => q.2.kept)).map ValueRecord.bare) task field).map fun q => q.1.value) ↔
      J.LastAgree runID := by
  have hkeys : (stableSort valueKey (J.seen runID)).Pairwise fun a b => valueKey a < valueKey b :=
    (stableSort_increasing valueKey (hn.values.filter _)).imp_of_mem fun {a b} ha hb hab =>
      valueKey_lt_of_place hn hlt (mem_filter.1 (mem_stableSort.1 ha)).1
        (mem_filter.1 (mem_stableSort.1 hb)).1 hab
  have htimes : (stableSort (fun q => q.2.timestamp.nanos) (J.seen runID)).Pairwise fun a b =>
      timePlace a < timePlace b := stableSort_increasing _ (hn.values.filter _)
  refine forall₂_congr fun task field => ?_
  rw [lookup_foldl_put, sortValueRecords_seen hn, lastCommitted_map_bare, filter_map, lastAt_map,
    Option.map_map, filter_map, lastAt_map, Option.map_map]
  have hiff := map_lastAt_eq_iff (f := fun q : String × ValueRecord => q.2.place)
    (k := (task, field)) (((stableSort_perm valueKey (J.seen runID)).trans
      (stableSort_perm (fun q => q.2.timestamp.nanos) _).symm).filter
        fun q => q.2.status = .committed) fun q => q.2.value
  refine hiff.trans (forall₂_congr fun x y => ?_)
  rw [lastAt_iff_isLast (stableSort_perm _ _) hkeys, lastAt_iff_isLast (stableSort_perm _ _) htimes]

/-! ## A run of its own -/

section Alone

variable (hn : J.Numbered n) (hlt : n ≤ 2 ^ 64) (halone : ∀ q ∈ J.values, Apart runID q.1)
  {q q' : String × ValueRecord} {task field : String}

include hn hlt halone

/-- The keys of the run's records are in the order of unsigned time and arrival. -/
lemma valueKey_lt_iff (hq : q ∈ J.committed runID task field)
    (hq' : q' ∈ J.committed runID task field) : valueKey q < valueKey q' ↔
      q.2.timestamp.unsigned < q'.2.timestamp.unsigned ∨
        q.2.timestamp.unsigned = q'.2.timestamp.unsigned ∧ q.2.seq < q'.2.seq := by
  have hrun {q : String × ValueRecord} (hq : q ∈ J.committed runID task field) :
      q ∈ J.values ∧ q.1 = runID := by
    obtain ⟨hq, hstem⟩ := mem_filter.1 (mem_filter.1 hq).1
    exact ⟨hq, eq_of_runStem (halone q hq) ( isPrefixOf_iff_prefix.1 hstem)⟩
  obtain ⟨hq, hr⟩ := hrun hq
  obtain ⟨hq', hr'⟩ := hrun hq'
  rw [valueKey, valueKey, hr, hr', eventKey_lt_iff (seq_lt hn hlt hq) (seq_lt hn hlt hq')]

/-- On one side of 1970 the keys are in the order of time. -/
lemma valueKey_le_iff (hq : q ∈ J.committed runID task field)
    (hq' : q' ∈ J.committed runID task field)
    (hside : q.2.timestamp.nanos < 0 ↔ q'.2.timestamp.nanos < 0) :
    valueKey q ≤ valueKey q' ↔ timePlace q ≤ timePlace q' := by
  have hu := q.2.timestamp.unsigned_eq
  have hu' := q'.2.timestamp.unsigned_eq
  rw [← not_lt, ← not_lt, valueKey_lt_iff hn hlt halone hq' hq, timePlace, timePlace,
    Prod.Lex.toLex_lt_toLex]
  split at hu <;> split at hu' <;> omega

/-- Keys from before 1970 come last. -/
lemma valueKey_lt_of_early (hq : q ∈ J.committed runID task field)
    (hq' : q' ∈ J.committed runID task field) (hlate : 0 ≤ q.2.timestamp.nanos)
    (hearly : q'.2.timestamp.nanos < 0) : valueKey q < valueKey q' := by
  have hu := q.2.timestamp.unsigned_eq
  have hu' := q'.2.timestamp.unsigned_eq
  obtain ⟨-, hhi⟩ := q.2.timestamp.nanos_range
  obtain ⟨hlo, -⟩ := q'.2.timestamp.nanos_range
  rw [valueKey_lt_iff hn hlt halone hq hq']
  rw [if_neg (by omega)] at hu
  rw [if_pos hearly] at hu'
  exact .inl (by omega)

omit hlt halone in
lemma timePlace_inj (hq : q ∈ J.committed runID task field)
    (hq' : q' ∈ J.committed runID task field) (h : timePlace q = timePlace q') : q = q' := by
  have hmem {q : String × ValueRecord} (hq : q ∈ J.committed runID task field) : q ∈ J.values :=
    (mem_filter.1 (mem_filter.1 hq).1).1
  exact eq_of_increasing (f := fun q => q.2.seq) hn.values (hmem hq) (hmem hq')
    (Prod.mk.inj (toLex_inj.1 h)).2

/-- When no other run has records under the keys of the run, the two orders can only differ about
records from the two sides of 1970. -/
lemma lastAgree_iff_settled1970 : J.LastAgree runID ↔ J.Settled1970 runID := by
  constructor
  · intro h task field x y hx hy
    obtain ⟨hx, hxlast⟩ := hx
    obtain ⟨hy, hylast⟩ := hy
    simp only [mem_filter, decide_eq_true_eq] at hx hy hxlast hylast
    refine h task field x y ⟨hx.1, fun z hz => ?_⟩ ⟨hy.1, fun z hz => ?_⟩
    · by_cases hside : z.2.timestamp.nanos < 0
      · rw [valueKey_le_iff hn hlt halone hz hx.1 (iff_of_true hside hx.2)]
        exact hxlast z ⟨hz, hside⟩
      · exact (valueKey_lt_of_early hn hlt halone hz hx.1 (not_lt.1 hside) hx.2).le
    · by_cases hside : z.2.timestamp.nanos < 0
      · exact Prod.Lex.toLex_le_toLex.2 (.inl (hside.trans_le hy.2))
      · exact hylast z ⟨hz, not_lt.1 hside⟩
  · intro h task field x y hx hy
    obtain ⟨hx, hxlast⟩ := hx
    obtain ⟨hy, hylast⟩ := hy
    have hsame (hside : x.2.timestamp.nanos < 0 ↔ y.2.timestamp.nanos < 0) : x = y := by
      have hle := (valueKey_le_iff hn hlt halone hy hx hside.symm).1 (hxlast y hy)
      exact timePlace_inj hn hx hy ((hylast x hx).antisymm hle)
    by_cases hxside : x.2.timestamp.nanos < 0
    · by_cases hyside : y.2.timestamp.nanos < 0
      · rw [hsame (iff_of_true hxside hyside)]
      · refine h task field x y ⟨by simp [hx, hxside], fun z hz => ?_⟩
          ⟨by simpa [hy] using hyside, fun z hz => hylast z (mem_of_mem_filter hz)⟩
        obtain ⟨hz, hzside⟩ := mem_filter.1 hz
        rw [← valueKey_le_iff hn hlt halone hz hx (iff_of_true (of_decide_eq_true hzside) hxside)]
        exact hxlast z hz
    · -- a record from before 1970 would have a greater key
      have hyside : ¬ y.2.timestamp.nanos < 0 := fun hyside => absurd (hxlast y hy)
        (not_le.2 (valueKey_lt_of_early hn hlt halone hx hy (not_lt.1 hxside) hyside))
      rw [hsame (iff_of_false hxside hyside)]

end Alone

end Journal

/-! ## The store -/

/-- `Store`, with the number the sequence gives out next. -/
structure BadgerStore where
  db : Database
  next : Nat

namespace BadgerStore

/-- An iterator over the keys with a prefix. -/
def iter (db : Database) (p : List UInt8) : List (List UInt8 × Stored) := db.scan fun k => p <+: k

/-- `Sequence.Next`: the number that is drawn, and the next one. -/
def draw (n : Nat) : Nat × Nat := (n, n + 1)

section Calls

variable (enc : Encoder) (s : BadgerStore)

/-- `Save`. -/
def save (m : RunMetadata) : Except String Unit × BadgerStore :=
  if m.runID = "" then (.error "save: empty RunID", s)
  else
    match enc.metadata m with
    | .error e => (.error ("save: encode metadata: " ++ e), s)
    | .ok () => (.ok (), { s with db := s.db.set (metaKey m.runID) (.metadata m) })

/-- `WriteBatch`. -/
def writeBatch (ops : List WriteOp) : Except String Unit × BadgerStore :=
  match ops.forM validateWriteOp with
  | .error e => (.error e, s)
  | .ok () =>
    match Keyed.applyOps enc.payload iter draw s.db s.next ops with
    | (.error e, n) => (.error e, { s with next := n })
    | (.ok db, n) => (.ok (), ⟨db, n⟩)

/-- `CurrentVersion`. -/
def currentVersion (runID : String) : Except String (Option CurrentVersion) :=
  Keyed.currentVersion iter s.db runID

/-- `FullHistory`. -/
def fullHistory (runID : String) : Except String (Option FullHistory) :=
  (Keyed.fullHistory iter s.db runID).map fun o => o.map fun fh =>
    { fh with values := sortValueRecords fh.values, history := sortHistoryRecords fh.history }

/-- A call that is accepted, after the sequence has skipped `k` numbers. -/
def accept : Nat × StoreCall → Except String BadgerStore
  | (k, .save m) =>
    match save enc { s with next := s.next + k } m with
    | (.ok (), s) => .ok s
    | (.error e, _) => .error e
  | (k, .writeBatch ops) =>
    match writeBatch enc { s with next := s.next + k } ops with
    | (.ok (), s) => .ok s
    | (.error e, _) => .error e

end Calls

/-- The store after calls that are all accepted. -/
def acceptAll (enc : Encoder) (steps : List (Nat × StoreCall)) : Except String BadgerStore :=
  steps.foldlM (accept enc) ⟨.empty, 0⟩

/-- What arrives with an accepted call, and the number that is given out next. -/
def arrive (a : Journal × Nat) : Nat × StoreCall → Journal × Nat
  | (k, .save m) => (a.1.addMeta m, a.2 + k)
  | (k, .writeBatch ops) => (a.1.applyOps (a.2 + k) ops, a.2 + k + arrivalsOf ops)

/-- What has arrived with all the calls. -/
def journal (steps : List (Nat × StoreCall)) : Journal := (steps.foldl arrive (.empty, 0)).1

/-- The numbers that have been drawn or skipped. -/
def drawn (steps : List (Nat × StoreCall)) : Nat := (steps.map fun a => a.1 + a.2.arrivals).sum

/-- `CurrentVersion` and `FullHistory` agree about a run: a task and field have a value
just when a committed record is listed for them, and it is that of the last one. -/
def Consistent (s : BadgerStore) (runID : String) : Prop :=
  ∃ o o', s.currentVersion runID = .ok o ∧ s.fullHistory runID = .ok o' ∧ match o, o' with
    | none, none => True
    | some cv, some fh => ∀ task field, cv.values.lookup task field =
        (lastCommitted (fh.values.map ValueRecord.bare) task field).map fun q => q.1.value
    | _, _ => False

variable {enc : Encoder} {s s' : BadgerStore} {a : Journal × Nat}

lemma draws : Journal.Draws draw 0 := fun _ _ => rfl

/-- The store holds what has arrived. -/
structure Tracks (s : BadgerStore) (a : Journal × Nat) : Prop where
  represents : a.1.Represents none s.db
  numbered : a.1.Numbered a.2
  named : a.1.Named
  next_eq : s.next = a.2

lemma Tracks.save (h : Tracks s a) {k : Nat} {m : RunMetadata}
    (hacc : s.accept enc (k, .save m) = .ok s') : Tracks s' (arrive a (k, .save m)) := by
  have hn := h.numbered.mono (Nat.le_add_right a.2 k)
  rw [accept, BadgerStore.save] at hacc
  by_cases hm : m.runID = ""
  · rw [if_pos hm] at hacc
    cases hacc
  · rw [if_neg hm] at hacc
    cases henc : enc.metadata m with
    | error e => simp [henc] at hacc
    | ok u =>
      simp only [henc] at hacc
      obtain rfl := Except.ok.inj hacc
      exact ⟨h.represents.addMeta m, { hn with }, h.named, congrArg (· + k) h.next_eq⟩

lemma Tracks.writeBatch (h : Tracks s a) {k : Nat} {ops : List WriteOp}
    (hfit : a.2 + k + arrivalsOf ops ≤ 2 ^ 64) (hacc : s.accept enc (k, .writeBatch ops) = .ok s') :
    Tracks s' (arrive a (k, .writeBatch ops)) := by
  have hn := h.numbered.mono (Nat.le_add_right a.2 k)
  rw [accept, BadgerStore.writeBatch, h.next_eq] at hacc
  cases hv : ops.forM validateWriteOp with
  | error e => simp [hv] at hacc
  | ok u =>
    have hops := forM_validateWriteOp.1 hv
    simp only [hv] at hacc
    have happly := @Journal.Represents.applyOps a.1 none s.db (a.2 + k) enc.payload iter ops draw 0
      draws (fun _ _ => rfl) hops h.represents hn hfit
    rcases happly with ⟨db, hrun, hdb⟩ | ⟨msg, n, hrun, -⟩
    · simp only [hrun] at hacc
      obtain rfl := Except.ok.inj hacc
      exact ⟨hdb, Journal.applyOps_numbered hn, h.named.applyOps hops, rfl⟩
    · simp only [hrun] at hacc
      cases hacc

lemma arrive_next (a : Journal × Nat) (x : Nat × StoreCall) :
    (arrive a x).2 = a.2 + (x.1 + x.2.arrivals) := by
  obtain ⟨k, c⟩ := x
  cases c with
  | save m => rfl
  | writeBatch ops => exact Nat.add_assoc _ _ _

lemma foldl_arrive_next (steps : List (Nat × StoreCall)) :
    (steps.foldl arrive (.empty, 0)).2 = drawn steps := by
  induction steps using reverseRecOn with
  | nil => rfl
  | append_singleton steps x ih =>
    rw [foldl_concat, arrive_next, ih, drawn, drawn, map_append, sum_append, map_singleton,
      sum_singleton]

lemma tracks_acceptAll {steps : List (Nat × StoreCall)} (hfit : drawn steps ≤ 2 ^ 64)
    (hacc : acceptAll enc steps = .ok s) : Tracks s (steps.foldl arrive (.empty, 0)) := by
  induction steps using reverseRecOn generalizing s with
  | nil =>
    obtain rfl := Except.ok.inj hacc
    exact ⟨Journal.represents_empty, Journal.numbered_empty _, nofun, rfl⟩
  | append_singleton steps x ih =>
    obtain ⟨s₀, hs₀, hacc⟩ := Fallible.foldlM_concat_eq_ok.1 hacc
    rw [← foldl_arrive_next, foldl_concat, arrive_next] at hfit
    have hle : drawn steps ≤ 2 ^ 64 := by
      rw [← foldl_arrive_next]
      omega
    have htracks := ih hle hs₀
    rw [foldl_concat]
    obtain ⟨k, c⟩ := x
    cases c with
    | save m => exact htracks.save hacc
    | writeBatch ops =>
      refine htracks.writeBatch ?_ hacc
      rwa [Nat.add_assoc]

lemma Tracks.consistent_iff (h : Tracks s a) (hlt : a.2 ≤ 2 ^ 64) (runID : String) :
    Consistent s runID ↔ a.1.LastAgree runID := by
  obtain ⟨m, exist, history, hnone, hcurrent, hfull⟩ :=
    Journal.reads_seen h.represents h.numbered hlt runID h.named
      (fun _ _ => rfl : ∀ db p, iter db p = _)
  rw [Consistent, currentVersion, hcurrent, fullHistory, hfull,
    ← Journal.same_last_iff h.numbered hlt]
  simp only [Except.map, Except.ok.injEq, exists_and_left, exists_eq_left']
  cases exist with
  | true => rfl
  | false =>
    -- nothing lies under the keys of a run that is not found
    rw [hnone rfl]
    simp [stableSort, sortValueRecords, sortReplay, lastCommitted, lastAt, FieldValues.lookup]

/-- The two reads of a run agree exactly when, for each task and field, of the committed records
under its keys the one with the greatest key and the latest one have one value.  When no other run
has records there, this says that the last committed write from before 1970 and the last one from
after it, where there are both, have one value. -/
theorem badger_consistent_iff {steps : List (Nat × StoreCall)} (hfit : drawn steps ≤ 2 ^ 64)
    (hacc : acceptAll enc steps = .ok s) (runID : String) :
    (Consistent s runID ↔ (journal steps).LastAgree runID) ∧
    ((∀ q ∈ (journal steps).values, Journal.Apart runID q.1) →
      (Consistent s runID ↔ (journal steps).Settled1970 runID)) := by
  have h := tracks_acceptAll hfit hacc
  have hlt : (steps.foldl arrive (.empty, 0)).2 ≤ 2 ^ 64 := (foldl_arrive_next steps).trans_le hfit
  refine ⟨h.consistent_iff hlt runID, fun halone => (h.consistent_iff hlt runID).trans ?_⟩
  exact Journal.lastAgree_iff_settled1970 h.numbered hlt halone

/-- A committed write from a nanosecond after 1970 began and one from a nanosecond
before: the former is listed last, the value of the latter is reported. -/
theorem badger_before_1970 : ((acceptAll .all [(0, .writeBatch [writeAt 1 "1", writeAt (-1) "2",
        commitOp "a" "t"])]).bind fun s => s.currentVersion "a").map
      (fun o => o.bind fun cv => cv.values.lookup "t" "f") = .ok (some (bytesOf "2")) ∧
    ((acceptAll .all [(0, .writeBatch [writeAt 1 "1", writeAt (-1) "2",
        commitOp "a" "t"])]).bind fun s => s.fullHistory "a").map
      (fun o => o.bind fun fh => (lastCommitted (fh.values.map ValueRecord.bare) "t" "f").map
        fun q => q.1.value) = .ok (some (bytesOf "1")) := by
  constructor <;> decide +kernel

/-- Two committed writes from after 1970, and one of a task whose id runs into that of the first. -/
theorem badger_consistent_after_1970 : ∃ s, acceptAll .all [(0, .writeBatch
      [writeAt 2 "1", writeAt 1 "2", taskOp "a" "t|u", commitOp "a" "t"])] = .ok s ∧
    Consistent s "a" := by
  obtain ⟨s, hs⟩ : ∃ s, acceptAll .all [(0, .writeBatch
      [writeAt 2 "1", writeAt 1 "2", taskOp "a" "t|u", commitOp "a" "t"])] = .ok s := ⟨_, rfl⟩
  refine ⟨s, hs, ((badger_consistent_iff (by decide) hs "a").2 fun q hq => ?_).2 ?_⟩
  · have hrun : ∀ q ∈ (journal [(0, .writeBatch [writeAt 2 "1", writeAt 1 "2", taskOp "a" "t|u",
        commitOp "a" "t"])]).values, q.1 = "a" := by decide +kernel
    rw [hrun q hq]
    exact ⟨not_extends_self, not_extends_self⟩
  · have hlate : ∀ q ∈ (journal [(0, .writeBatch [writeAt 2 "1", writeAt 1 "2", taskOp "a" "t|u",
        commitOp "a" "t"])]).values, ¬ q.2.timestamp.nanos < 0 := by decide +kernel
    intro task field x y hx
    obtain ⟨hx, hearly⟩ := mem_filter.1 hx.1
    exact absurd (of_decide_eq_true hearly) (hlate x (mem_filter.1 (mem_filter.1 hx).1).1)

end BadgerStore

end Blkit
