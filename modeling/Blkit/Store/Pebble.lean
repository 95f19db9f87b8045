import Blkit.Store.Readback

/-!
# The Pebble state store

`stores/pebble/store.go`.  A batch is applied to an indexed batch, which shows its own
writes over the database, and then to the database as a whole; the arrival counter
lives in memory and is stored with every batch.  A batch that fails has moved the
counter on and nothing else.  Writes are not synced, so that a reopened store finds
the database as some earlier write left it, and the counter that was stored then.

Whatever of this happens, the index lists exactly the pending records, no two records
share an arrival number, and no number is above the stored counter; so a new record
never meets a key that is in use.
-/

namespace Blkit

open List

/-- `Store`. -/
structure PebbleStore where
  db : Database
  seq : Nat

/-- A value record with status pending. -/
def Stored.isPending : Stored → Bool
  | .value rec => rec.status = ValueStatus.pending.string
  | _ => false

namespace PebbleStore

open Journal (seqKey)

/-- `New`: the counter is read from the database. -/
def new (db : Database) : PebbleStore where
  db := db
  seq :=
    match db.get seqKey with
    | some (.number n) => n
    | _ => 0

/-- An iterator with a lower and an upper bound. -/
def iter (db : Database) (p : List UInt8) : List (List UInt8 × Stored) :=
  db.scan fun k => p ≤ k ∧ ∀ u ∈ upperBound p, k < u

/-- The loop of `upperBound`, with `i` bytes left to look at. -/
def upperBoundLoop (ub : List UInt8) : (i : Nat) → Option (List UInt8)
  | 0 => none
  | i + 1 =>
    if ub.getD i 0 < 0xff then some ((ub.set i (ub.getD i 0 + 1)).take (i + 1))
    else upperBoundLoop ub i

/-- `upperBound`; `none` is `nil`. -/
def upperBound (p : List UInt8) : Option (List UInt8) := upperBoundLoop p p.length

/-- `s.seq++`, a `uint64`: the number that is drawn, and the counter after it. -/
def draw (n : Nat) : Nat × Nat := ((n + 1) % 2 ^ 64, (n + 1) % 2 ^ 64)

section Calls

variable (enc : Encoder) (s : PebbleStore)

/-- `Save`. -/
def save (m : RunMetadata) : Except String Unit × PebbleStore :=
  if m.runID = "" then (.error "save: empty RunID", s)
  else
    match enc.metadata m with
    | .error e => (.error ("save: encode metadata: " ++ e), s)
    | .ok () => (.ok (), { s with db := s.db.set (metaKey m.runID) (.metadata m) })

/-- The loop of `WriteBatch` over the operations. -/
def applyOps (ops : List WriteOp) : Except String Database × Nat :=
  Keyed.applyOps enc.payload iter draw s.db s.seq ops

/-- `WriteBatch`. -/
def writeBatch (ops : List WriteOp) : Except String Unit × PebbleStore :=
  match ops.forM validateWriteOp with
  | .error e => (.error e, s)
  | .ok () =>
    match s.applyOps enc ops with
    | (.error e, n) => (.error e, { s with seq := n })
    | (.ok b, n) => (.ok (), ⟨b.set seqKey (.number n), n⟩)

/-- `WriteBatch` when the storage fails after `k` operations. -/
def failBatch (ops : List WriteOp) (k : Nat) : PebbleStore :=
  match ops.forM validateWriteOp with
  | .error _ => s
  | .ok () => { s with seq := (s.applyOps enc (ops.take k)).2 }

/-- `CurrentVersion`. -/
def currentVersion (runID : String) : Except String (Option CurrentVersion) :=
  Keyed.currentVersion iter s.db runID

/-- `FullHistory`. -/
def fullHistory (runID : String) : Except String (Option FullHistory) :=
  Keyed.fullHistory iter s.db runID

end Calls

lemma iter_eq (db : Database) (p : List UInt8) : iter db p = db.scan fun k => p <+: k := by
  rw [iter, KeyStore.scan, KeyStore.scan]
  refine filter_congr fun e _ => ?_
  rw [decide_eq_decide]
  exact between_upperBound_iff

lemma upperBoundLoop_eq {ub : List UInt8} {i : Nat} (h : i ≤ ub.length) :
    upperBoundLoop ub i = Blkit.upperBound (ub.take i) := by
  induction i with
  | zero => rfl
  | succ i ih =>
    rw [upperBoundLoop, ih (Nat.le_of_succ_le h), take_succ_eq_append_getElem h, upperBound_concat,
      take_succ_eq_append_getElem (by rwa [length_set]), take_set_of_le le_rfl, getElem_set_self,
      getD_eq_getElem?_getD, getElem?_eq_getElem h, Option.getD_some]

/-- The bound the source computes is the one `iter` has. -/
lemma upperBound_eq (p : List UInt8) : upperBound p = Blkit.upperBound p := by
  rw [upperBound, upperBoundLoop_eq le_rfl, take_length]

/-- The keys from a string to its upper bound are those that begin with it. -/
theorem upperBound_range (p k : List UInt8) :
    (p ≤ k ∧ ∀ u ∈ upperBound p, k < u) ↔ p <+: k := by
  rw [upperBound_eq]
  exact between_upperBound_iff

lemma draws : Journal.Draws draw 1 := by
  intro n hn
  rw [draw, Nat.mod_eq_of_lt hn]

/-! ## Databases -/

/-- The counter a reopened store starts with. -/
def counter (db : Database) : Nat := (new db).seq

/-- The entries of the flip index. -/
def indexEntries (db : Database) : List (List UInt8 × Stored) := db.scan fun k => [112, bar] <+: k

/-- The value records. -/
def valueEntries (db : Database) : List (List UInt8 × Stored) := db.scan fun k => [118, bar] <+: k

/-- The history records. -/
def historyEntries (db : Database) : List (List UInt8 × Stored) := db.scan fun k => [104, bar] <+: k

/-- The index entries are in one-to-one correspondence with the pending records: read
as keys, they are the keys of those records, each once. -/
def IndexMatches (db : Database) : Prop :=
  ((indexEntries db).map Prod.snd).Perm
    (((valueEntries db).filter fun e => e.2.isPending).map fun e => .key e.1)

/-- The arrival numbers of the stored records. -/
def arrivalNumbers (db : Database) : List Nat :=
  (valueEntries db ++ historyEntries db).map fun e => (splitEventKey e.1).2

/-- The database holds a journal whose numbers are at most the stored counter. -/
def Sound (db : Database) : Prop :=
  ∃ (J : Journal) (c : Option Nat), J.Represents c db ∧ J.Numbered (c.getD 0 + 1) ∧ J.Named

section Sound

variable {J : Journal} {c : Option Nat} {db : Database} {n : Nat}

open Journal

lemma get_seqKey (h : J.Represents c db) : db.get seqKey = c.map .number := by
  ext x
  rw [h seqKey x, Option.map_eq_some_iff]
  constructor
  · intro hh
    obtain ⟨m, hm, rfl⟩ := hh.inv
    exact ⟨m, hm, rfl⟩
  · rintro ⟨m, hm, rfl⟩
    exact .counter hm

lemma counter_eq (h : J.Represents c db) : counter db = c.getD 0 := by
  rw [counter, new, get_seqKey h]
  cases c <;> rfl

variable {e : List UInt8 × Stored}

lemma mem_indexEntries (h : J.Represents c db) : e ∈ indexEntries db ↔
      ∃ q ∈ J.values, q.2.status = .pending ∧ e = (indexKey q, .key (valueKey q)) := by
  obtain ⟨k, x⟩ := e
  rw [indexEntries, KeyStore.mem_scan]
  constructor
  · rintro ⟨hget, t, rfl⟩
    obtain ⟨q, hq, hp, hk, rfl⟩ := ((h _ x).1 hget).inv
    exact ⟨q, hq, hp, Prod.ext hk rfl⟩
  · rintro ⟨q, hq, hp, he⟩
    obtain ⟨rfl, rfl⟩ := Prod.mk.inj he
    exact ⟨(h _ _).2 (.pending hq hp), _, rfl⟩

lemma mem_valueEntries (h : J.Represents c db) : e ∈ valueEntries db ↔
      ∃ q ∈ J.values, e = (valueKey q, .value (q.2.toValueWrite.toRec q.2.status)) := by
  obtain ⟨k, x⟩ := e
  rw [valueEntries, KeyStore.mem_scan]
  constructor
  · rintro ⟨hget, t, rfl⟩
    obtain ⟨q, hq, hk, rfl⟩ := ((h _ x).1 hget).inv
    exact ⟨q, hq, Prod.ext hk rfl⟩
  · rintro ⟨q, hq, he⟩
    obtain ⟨rfl, rfl⟩ := Prod.mk.inj he
    exact ⟨(h _ _).2 (.value hq), _, rfl⟩

lemma of_mem_historyEntries (h : J.Represents c db) (he : e ∈ historyEntries db) :
    ∃ q ∈ J.history, e = (historyKey q, .history q.2.toHistoryEntry.toRec) := by
  obtain ⟨k, x⟩ := e
  obtain ⟨hget, t, rfl⟩ := KeyStore.mem_scan.1 he
  obtain ⟨q, hq, hk, rfl⟩ := ((h _ x).1 hget).inv
  exact ⟨q, hq, Prod.ext hk rfl⟩

lemma scan_nodup {p : List UInt8 → Prop} [DecidablePred p] : (db.scan p).Nodup :=
  (nodup_of_increasing KeyStore.scan_increasing).of_map

lemma isPending_toRec {q : String × ValueRecord} (h : q.2.status.Named) :
    (Stored.value (q.2.toValueWrite.toRec q.2.status)).isPending ↔ q.2.status = .pending := by
  rw [Stored.isPending, decide_eq_true_eq]
  exact h.string_eq .pending rfl

section Numbers

variable (h : J.Represents c db) (hn : J.Numbered n) (hlt : n ≤ 2 ^ 64)

include h hn hlt

lemma indexMatches (hnamed : J.Named) : IndexMatches db := by
  have hindex : ((indexEntries db).map Prod.snd).Nodup := by
    refine List.Nodup.map_on (fun e he e' he' heq => ?_) scan_nodup
    obtain ⟨q, hq, -, rfl⟩ := (mem_indexEntries h).1 he
    obtain ⟨q', hq', -, rfl⟩ := (mem_indexEntries h).1 he'
    rw [eq_of_valueKey hn hlt hq hq' (Stored.key.inj heq)]
  have hpending : (((valueEntries db).filter fun e => e.2.isPending).map
      fun e => Stored.key e.1).Nodup := by
    refine List.Nodup.map_on (fun e he e' he' heq => ?_) (scan_nodup.filter _)
    obtain ⟨q, hq, rfl⟩ := (mem_valueEntries h).1 (mem_filter.1 he).1
    obtain ⟨q', hq', rfl⟩ := (mem_valueEntries h).1 (mem_filter.1 he').1
    rw [eq_of_valueKey hn hlt hq hq' (Stored.key.inj heq)]
  rw [IndexMatches, perm_ext_iff_of_nodup hindex hpending]
  intro x
  rw [mem_map, mem_map]
  constructor
  · rintro ⟨e, he, rfl⟩
    obtain ⟨q, hq, hp, rfl⟩ := (mem_indexEntries h).1 he
    refine ⟨_, mem_filter.2 ⟨(mem_valueEntries h).2 ⟨q, hq, rfl⟩, ?_⟩, rfl⟩
    exact (isPending_toRec (hnamed q hq)).2 hp
  · rintro ⟨e, he, rfl⟩
    obtain ⟨he, hp⟩ := mem_filter.1 he
    obtain ⟨q, hq, rfl⟩ := (mem_valueEntries h).1 he
    exact ⟨_, (mem_indexEntries h).2 ⟨q, hq, (isPending_toRec (hnamed q hq)).1 hp, rfl⟩, rfl⟩

/-- The number a stored record carries, with the record. -/
lemma mem_events (he : e ∈ valueEntries db ++ historyEntries db) :
    (∃ q ∈ J.values, (splitEventKey e.1).2 = q.2.seq ∧
      e = (valueKey q, .value (q.2.toValueWrite.toRec q.2.status))) ∨
    ∃ q ∈ J.history, (splitEventKey e.1).2 = q.2.seq ∧
      e = (historyKey q, .history q.2.toHistoryEntry.toRec) := by
  rcases mem_append.1 he with he | he
  · obtain ⟨q, hq, rfl⟩ := (mem_valueEntries h).1 he
    refine .inl ⟨q, hq, ?_, rfl⟩
    rw [valueKey, splitEventKey_eventKey (seq_lt hn hlt hq)]
  · obtain ⟨q, hq, rfl⟩ := of_mem_historyEntries h he
    refine .inr ⟨q, hq, ?_, rfl⟩
    rw [historyKey, splitEventKey_eventKey ((hn.history_lt q hq).trans_le hlt)]

lemma arrivalNumbers_lt : ∀ m ∈ arrivalNumbers db, m < n := by
  intro m hm
  obtain ⟨e, he, rfl⟩ := mem_map.1 hm
  rcases mem_events h hn hlt he with ⟨q, hq, hseq, -⟩ | ⟨q, hq, hseq, -⟩
  · rw [hseq]
    exact hn.values_lt q hq
  · rw [hseq]
    exact hn.history_lt q hq

lemma arrivalNumbers_nodup : (arrivalNumbers db).Nodup := by
  have happart : (valueEntries db ++ historyEntries db).Nodup := by
    refine nodup_append'.2 ⟨scan_nodup, scan_nodup, ?_⟩
    intro e he he'
    obtain ⟨q, -, rfl⟩ := (mem_valueEntries h).1 he
    obtain ⟨q', -, hk⟩ := of_mem_historyEntries h he'
    cases (Prod.mk.inj hk).2
  refine List.Nodup.map_on (fun e he e' he' heq => ?_) happart
  rcases mem_events h hn hlt he with ⟨q, hq, hseq, rfl⟩ | ⟨q, hq, hseq, rfl⟩ <;>
    rcases mem_events h hn hlt he' with ⟨q', hq', hseq', rfl⟩ | ⟨q', hq', hseq', rfl⟩
  · rw [eq_of_increasing (f := fun q : String × ValueRecord => q.2.seq) hn.values hq hq'
      (hseq.symm.trans (heq.trans hseq'))]
  · exact absurd (hseq.symm.trans (heq.trans hseq')) (hn.apart q hq q' hq')
  · exact absurd (hseq'.symm.trans (heq.symm.trans hseq)) (hn.apart q' hq' q hq)
  · rw [eq_of_increasing (f := fun q : String × HistoryRecord => q.2.seq) hn.history hq hq'
      (hseq.symm.trans (heq.trans hseq'))]

end Numbers

end Sound

/-! ## Runs -/

/-- The store with the states its database had before each write, the newest first. -/
structure World where
  store : PebbleStore
  past : List Database

/-- What can happen to a store. -/
inductive Step where
  | save (m : RunMetadata)
  | batch (ops : List WriteOp)
  /-- a batch that is cut short by the storage -/
  | failing (ops : List WriteOp) (k : Nat)
  /-- the store is opened again, its newest `k` writes lost -/
  | reopen (k : Nat)

/-- The number of records a step may bring. -/
def Step.arrivals : Step → Nat
  | .batch ops => arrivalsOf ops
  | .failing ops _ => arrivalsOf ops
  | _ => 0

namespace World

variable (enc : Encoder)

/-- An empty store. -/
def init : World := ⟨new .empty, []⟩

/-- The store after a call, the state before it remembered when something was written. -/
def wrote (w : World) : Except String Unit × PebbleStore → World
  | (.ok (), s) => ⟨s, w.store.db :: w.past⟩
  | (.error _, s) => ⟨s, w.past⟩

/-- One step. -/
def step (w : World) : Step → World
  | .save m => w.wrote (w.store.save enc m)
  | .batch ops => w.wrote (w.store.writeBatch enc ops)
  | .failing ops k => { w with store := w.store.failBatch enc ops k }
  | .reopen k =>
    match (w.store.db :: w.past).drop k with
    | [] => init
    | db :: past => ⟨new db, past⟩

/-- Any number of steps. -/
def run (steps : List Step) : World := steps.foldl (step enc) init

/-- Every state of the database is sound, and the counter in memory is at least the
stored one and at most `N`. -/
structure Good (w : World) (N : Nat) : Prop where
  sound : ∀ db ∈ w.store.db :: w.past, Sound db ∧ counter db ≤ N
  counter_le : counter w.store.db ≤ w.store.seq
  seq_le : w.store.seq ≤ N

variable {enc} {w : World} {N : Nat}

open Journal

lemma sound_empty : Sound .empty := ⟨.empty, none, represents_empty, numbered_empty _, nofun⟩

lemma good_init (N : Nat) : init.Good N := by
  refine ⟨fun db hdb => ?_, le_rfl, Nat.zero_le N⟩
  rw [mem_singleton.1 hdb]
  exact ⟨sound_empty, Nat.zero_le N⟩

lemma Good.mono (h : w.Good N) {N' : Nat} (hN : N ≤ N') : w.Good N' :=
  ⟨fun db hdb => ⟨(h.sound db hdb).1, (h.sound db hdb).2.trans hN⟩, h.counter_le, h.seq_le.trans hN⟩

/-- The journal of the database, its numbers at most the counter in memory. -/
lemma Good.journal (h : w.Good N) : ∃ (J : Journal) (c : Option Nat),
    J.Represents c w.store.db ∧ J.Numbered (w.store.seq + 1) ∧ J.Numbered (c.getD 0 + 1) ∧
      J.Named := by
  obtain ⟨⟨J, c, hrep, hn, hnamed⟩, -⟩ := h.sound _ mem_cons_self
  have hle := h.counter_le
  rw [counter_eq hrep] at hle
  exact ⟨J, c, hrep, hn.mono (Nat.succ_le_succ hle), hn, hnamed⟩

lemma Good.save (h : w.Good N) (m : RunMetadata) : (w.step enc (.save m)).Good N := by
  rw [step, PebbleStore.save]
  split
  · exact h
  · split
    · exact h
    · obtain ⟨J, c, hrep, -, hn, hnamed⟩ := h.journal
      have hsound := h.sound _ mem_cons_self
      have hadd := hrep.addMeta m
      have hcounter : counter (w.store.db.set (metaKey m.runID) (.metadata m)) =
          counter w.store.db := by
        rw [counter_eq hadd, counter_eq hrep]
      refine ⟨?_, ?_, h.seq_le⟩
      · refine forall_mem_cons.2 ⟨⟨⟨_, c, hadd, ?_, hnamed⟩, ?_⟩, h.sound⟩
        · exact { hn with }
        · exact hcounter.trans_le hsound.2
      · exact hcounter.trans_le h.counter_le

/-- What the loop of a batch does from a good state. -/
lemma Good.applyOps (enc : Encoder) (h : w.Good N) {ops : List WriteOp}
    (hops : ∀ op ∈ ops, op.Valid)
    (hfit : N + arrivalsOf ops < 2 ^ 64) :
    (∃ (J : Journal) (c : Option Nat) (b : Database),
      w.store.applyOps enc ops = (.ok b, w.store.seq + arrivalsOf ops) ∧
      J.Represents c b ∧ J.Numbered (w.store.seq + arrivalsOf ops + 1) ∧ J.Named) ∨
    ∃ msg n, w.store.applyOps enc ops = (.error msg, n) ∧ w.store.seq ≤ n ∧
      n ≤ w.store.seq + arrivalsOf ops := by
  obtain ⟨J, c, hrep, hn, -, hnamed⟩ := h.journal
  have hseq := h.seq_le
  rcases hrep.applyOps draws iter_eq hops hn (by omega) with ⟨b, hrun, hb⟩ | herr
  · refine .inl ⟨_, c, b, hrun, hb, ?_, hnamed.applyOps hops⟩
    have hn' : (J.applyOps (w.store.seq + 1) ops).Numbered _ := applyOps_numbered hn
    rwa [Nat.add_right_comm] at hn'
  · obtain ⟨msg, n, hrun, hlo, hhi, -⟩ := herr
    exact .inr ⟨msg, n, hrun, hlo, hhi⟩

lemma Good.batch (h : w.Good N) (ops : List WriteOp) (hfit : N + arrivalsOf ops < 2 ^ 64) :
    (w.step enc (.batch ops)).Good (N + arrivalsOf ops) := by
  have hN := h.mono (Nat.le_add_right N (arrivalsOf ops))
  have hseq := h.seq_le
  rw [step, writeBatch]
  cases hv : ops.forM validateWriteOp with
  | error e => exact hN
  | ok u =>
    rcases h.applyOps enc (forM_validateWriteOp.1 hv) hfit with
      ⟨J, c, b, hrun, hb, hn, hnamed⟩ | ⟨msg, n, hrun, hlo, hhi⟩
    · simp only [hrun]
      have hset := hb.setCounter (w.store.seq + arrivalsOf ops)
      refine ⟨?_, ?_, Nat.add_le_add_right hseq _⟩
      · refine forall_mem_cons.2 ⟨⟨⟨J, _, hset, hn, hnamed⟩, ?_⟩, hN.sound⟩
        exact (counter_eq hset).trans_le (Nat.add_le_add_right hseq _)
      · exact (counter_eq hset).le
    · simp only [hrun]
      exact ⟨hN.sound, h.counter_le.trans hlo, hhi.trans (Nat.add_le_add_right hseq _)⟩

lemma arrivalsOf_take_le (ops : List WriteOp) (k : Nat) :
    arrivalsOf (ops.take k) ≤ arrivalsOf ops := by
  have h :=
    arrivals_append ((ops.take k).filterMap WriteOp.event?) ((ops.drop k).filterMap WriteOp.event?)
  rw [← filterMap_append, take_append_drop] at h
  exact (Nat.le_add_right _ _).trans h.ge

lemma Good.failing (h : w.Good N) (ops : List WriteOp) (k : Nat)
    (hfit : N + arrivalsOf ops < 2 ^ 64) :
    (w.step enc (.failing ops k)).Good (N + arrivalsOf ops) := by
  have hN := h.mono (Nat.le_add_right N (arrivalsOf ops))
  have hseq := h.seq_le
  have hk := arrivalsOf_take_le ops k
  rw [step, failBatch]
  cases hv : ops.forM validateWriteOp with
  | error e => exact hN
  | ok u =>
    have hops : ∀ op ∈ ops.take k, op.Valid := fun op hop =>
      forM_validateWriteOp.1 hv op (mem_of_mem_take hop)
    have hmoved : w.store.seq ≤ (w.store.applyOps enc (ops.take k)).2 ∧
        (w.store.applyOps enc (ops.take k)).2 ≤ w.store.seq + arrivalsOf ops := by
      rcases h.applyOps enc hops (by omega) with
        ⟨J, c, b, hrun, -⟩ | ⟨msg, n, hrun, hlo, hhi⟩
      · rw [hrun]
        exact ⟨Nat.le_add_right _ _, Nat.add_le_add_left hk _⟩
      · rw [hrun]
        exact ⟨hlo, hhi.trans (Nat.add_le_add_left hk _)⟩
    exact ⟨hN.sound, h.counter_le.trans hmoved.1, hmoved.2.trans (Nat.add_le_add_right hseq _)⟩

lemma Good.reopen (h : w.Good N) (k : Nat) : (w.step enc (.reopen k)).Good N := by
  rw [step]
  cases hdrop : (w.store.db :: w.past).drop k with
  | nil => exact good_init N
  | cons db past =>
    have hsub : ∀ db' ∈ db :: past, Sound db' ∧ counter db' ≤ N := fun db' hdb' =>
      h.sound db' (mem_of_mem_drop (hdrop ▸ hdb'))
    exact ⟨hsub, le_rfl, (hsub db mem_cons_self).2⟩

/-- What one step preserves. -/
lemma Good.step (h : w.Good N) (a : Step) (hfit : N + a.arrivals < 2 ^ 64) :
    (w.step enc a).Good (N + a.arrivals) := by
  cases a with
  | save m => exact h.save m
  | batch ops => exact h.batch ops hfit
  | failing ops k => exact h.failing ops k hfit
  | reopen k => exact h.reopen k

/-- What a run preserves. -/
lemma good_run {steps : List Step} (hfit : (steps.map Step.arrivals).sum < 2 ^ 64) :
    (run enc steps).Good (steps.map Step.arrivals).sum := by
  induction steps using reverseRecOn with
  | nil => exact good_init 0
  | append_singleton steps a ih =>
    rw [map_append, sum_append, map_singleton, sum_singleton] at hfit ⊢
    rw [run, foldl_append]
    exact (ih (by omega)).step a hfit

end World

/-- The next operation of a batch is not in the way of what is stored: the key of a
new record is not in use, and a flip finds the record of every index entry. -/
def Unobstructed (b : Database) (n : Nat) (op : WriteOp) : Prop :=
  match op.event? with
  | some (.value w) => b.get (eventKey 118 op.runID w.timestamp.nanos (draw n).1) = none
  | some (.flip f) => ∃ b', Keyed.applyStatusFlip iter b op.runID f = .ok b'
  | some (.history h) => b.get (eventKey 104 op.runID h.timestamp.nanos (draw n).1) = none
  | none => True

lemma unobstructed {J : Journal} {c : Option Nat} {b : Database} {n : Nat} {op : WriteOp}
    (h : J.Represents c b) (hn : J.Numbered (n + 1)) (hop : op.Valid)
    (hfit : n + arrivalsOf [op] < 2 ^ 64) : Unobstructed b n op := by
  obtain ⟨e, he, hset⟩ := hop.event
  have hcount : n + arrivalsOf [op] = e.next n := arrivalsOf_cons he
  have hfresh {kind : UInt8} {t : GoTime} (hlt : n + 1 < 2 ^ 64) (h109 : kind ≠ 109)
      (h33 : kind ≠ 33) : b.get (eventKey kind op.runID t.nanos (draw n).1) = none := by
    rw [draws n hlt, Option.eq_none_iff_forall_ne_some]
    intro x hx
    refine Journal.not_holds_of_new hn hlt suffixOf_eventKey ?_ ?_ ((h _ x).1 hx)
    · exact fun hk => h109 (Option.some.inj hk)
    · exact fun hk => h33 (Option.some.inj hk)
  rw [hcount] at hfit
  rw [Unobstructed, he]
  cases e with
  | value w | history h => exact hfresh hfit (by decide) (by decide)
  | flip f =>
    obtain ⟨b', hrun, -⟩ := Journal.flip_represents hset.ne_pending h hn hfit
    refine ⟨b', ?_⟩
    rw [Keyed.applyStatusFlip, iter_eq]
    exact hrun

/-- After any run: the index lists the pending records one to one, the arrival numbers
of the records are pairwise distinct and at most the stored counter, and no operation
of a batch, however far the batch has come, meets a key in use or a dangling index
entry.  The `uint64` counter does not wrap around. -/
theorem pebble_index_and_counter (enc : Encoder) (steps : List Step)
    (hfit : (steps.map Step.arrivals).sum < 2 ^ 64) :
    IndexMatches (World.run enc steps).store.db ∧
    (arrivalNumbers (World.run enc steps).store.db).Nodup ∧
    (∀ m ∈ arrivalNumbers (World.run enc steps).store.db,
      m ≤ counter (World.run enc steps).store.db) ∧
    ∀ (ops : List WriteOp) (op : WriteOp) (b : Database) (n : Nat),
      (∀ op' ∈ ops ++ [op], op'.Valid) →
      (steps.map Step.arrivals).sum + arrivalsOf (ops ++ [op]) < 2 ^ 64 →
      (World.run enc steps).store.applyOps enc ops = (.ok b, n) → Unobstructed b n op := by
  have hgood : (World.run enc steps).Good _ := World.good_run hfit
  obtain ⟨⟨J, c, hrep, hn, hnamed⟩, hle⟩ := hgood.sound _ mem_cons_self
  have hcounter := counter_eq hrep
  have hlt : c.getD 0 + 1 ≤ 2 ^ 64 := by omega
  refine ⟨indexMatches hrep hn hlt hnamed, arrivalNumbers_nodup hrep hn hlt, ?_, ?_⟩
  · intro m hm
    rw [hcounter]
    exact Nat.lt_succ_iff.1 (arrivalNumbers_lt hrep hn hlt m hm)
  · intro ops op b n hops hroom hrun
    rw [forall_mem_concat] at hops
    have hsplit : arrivalsOf (ops ++ [op]) = arrivalsOf ops + arrivalsOf [op] := by
      rw [arrivalsOf, filterMap_append, arrivals_append]
      rfl
    have hseq := hgood.seq_le
    rcases hgood.applyOps enc hops.1 (by omega) with
      ⟨J, c, b', hrun', hb, hn, -⟩ | ⟨msg, n', herr, -⟩
    · obtain ⟨hb', rfl⟩ := Prod.mk.inj (hrun.symm.trans hrun')
      obtain rfl := Except.ok.inj hb'
      exact unobstructed hb hn hops.2 (by omega)
    · cases hrun.symm.trans herr

/-- A write, a write that fails, and the store is opened again as it was at first. -/
theorem pebble_index_and_counter_sample :
    ([Step.batch [sampleWrite], .failing [sampleWrite] 1, .reopen 0].map Step.arrivals).sum <
      2 ^ 64 ∧
    IndexMatches (World.run .all
      [Step.batch [sampleWrite], .failing [sampleWrite] 1, .reopen 0]).store.db :=
  ⟨by decide, (pebble_index_and_counter .all _ (by decide)).1⟩

end PebbleStore

end Blkit
