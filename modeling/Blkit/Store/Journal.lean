import Blkit.Store.Keyed

/-!
# What a flat key space holds

A journal lists the records of all runs as they arrived; `Represents` says that a
database holds a journal and nothing else.  Every operation on the database is an
operation on the journal.  A status flip settles the pending records whose index key
begins with the bytes it looks for (`hits`), and these are the records of its run and
task when no id contains the separator.
-/

namespace Blkit

open List

/-- The records of all runs, as they arrived, each with its run. -/
structure Journal where
  metas : String → Option RunMetadata
  values : List (String × ValueRecord)
  history : List (String × HistoryRecord)

namespace Journal

open Keyed

/-- Nothing has arrived. -/
def empty : Journal := ⟨fun _ => none, [], []⟩

/-- The key a value record lies under. -/
def valueKey (q : String × ValueRecord) : List UInt8 := eventKey 118 q.1 q.2.timestamp.nanos q.2.seq

/-- The key of the index entry of a value record. -/
def indexKey (q : String × ValueRecord) : List UInt8 := pendingKey q.1 q.2.taskID (valueKey q)

/-- The key a history record lies under. -/
def historyKey (q : String × HistoryRecord) : List UInt8 :=
  eventKey 104 q.1 q.2.timestamp.nanos q.2.seq

/-- The key the arrival counter lies under. -/
def seqKey : List UInt8 := bytesOf "!seq"

/-- What lies under which key, `c` being the arrival counter that was stored. -/
inductive Holds (J : Journal) (c : Option Nat) : List UInt8 → Stored → Prop
  | metadata {runID m} (h : J.metas runID = some m) : Holds J c (metaKey runID) (.metadata m)
  | value {q} (h : q ∈ J.values) :
    Holds J c (valueKey q) (.value (q.2.toValueWrite.toRec q.2.status))
  | pending {q} (h : q ∈ J.values) (hp : q.2.status = .pending) :
    Holds J c (indexKey q) (.key (valueKey q))
  | history {q} (h : q ∈ J.history) : Holds J c (historyKey q) (.history q.2.toHistoryEntry.toRec)
  | counter {n} (h : c = some n) : Holds J c seqKey (.number n)

/-- The database holds the journal and nothing else. -/
def Represents (J : Journal) (c : Option Nat) (db : Database) : Prop := db.Agrees (Holds J c)

/-- The arrival numbers increase and are below `n`. -/
structure Numbered (J : Journal) (n : Nat) : Prop where
  values : J.values.Pairwise fun a b => a.2.seq < b.2.seq
  history : J.history.Pairwise fun a b => a.2.seq < b.2.seq
  values_lt : ∀ q ∈ J.values, q.2.seq < n
  history_lt : ∀ q ∈ J.history, q.2.seq < n
  apart : ∀ q ∈ J.values, ∀ h ∈ J.history, q.2.seq ≠ h.2.seq

/-- A write arrives. -/
def addValue (J : Journal) (runID : String) (w : ValueWrite) (n : Nat) : Journal :=
  { J with values := J.values ++ [(runID, ⟨w, .pending, n⟩)] }

/-- A history entry arrives. -/
def addHistory (J : Journal) (runID : String) (h : HistoryEntry) (n : Nat) : Journal :=
  { J with history := J.history ++ [(runID, ⟨h, n⟩)] }

/-- Metadata is saved. -/
def addMeta (J : Journal) (m : RunMetadata) : Journal :=
  { J with metas := Function.update J.metas m.runID (some m) }

/-- The records of a kind are settled. -/
def settle (J : Journal) (p : String × ValueRecord → Bool) (st : ValueStatus) : Journal :=
  { J with values := J.values.map fun q => if p q then (q.1, { q.2 with status := st }) else q }

/-- The index key of the record begins with the bytes a flip looks for. -/
def hits (runID taskID : String) (q : String × ValueRecord) : Bool :=
  (flipStem runID taskID).isPrefixOf (indexKey q)

/-- A flip settles the pending records it hits. -/
def flip (J : Journal) (runID : String) (f : StatusFlip) : Journal :=
  J.settle (fun q => q.2.status = .pending ∧ hits runID f.taskID q) f.newStatus

variable {J : Journal} {c : Option Nat} {db : Database} {n n' : Nat} {runID : String}
  {q q' : String × ValueRecord} {k : List UInt8} {x : Stored}

/-! ## Keys of different records -/

lemma seq_lt (hn : J.Numbered n) (hlt : n ≤ 2 ^ 64) (hq : q ∈ J.values) : q.2.seq < 2 ^ 64 :=
  (hn.values_lt q hq).trans_le hlt

section Same

variable (hn : J.Numbered n) (hlt : n ≤ 2 ^ 64) (hq : q ∈ J.values) (hq' : q' ∈ J.values)

include hn hlt hq hq'

lemma eq_of_suffix
    (h : eventSuffix q.2.timestamp.nanos q.2.seq = eventSuffix q'.2.timestamp.nanos q'.2.seq) :
    q = q' := by
  have hseq := seq_of_eventSuffix (seq_lt hn hlt hq) (seq_lt hn hlt hq') h
  exact eq_of_increasing (f := fun q => q.2.seq) hn.values hq hq' hseq

lemma eq_of_valueKey (h : valueKey q = valueKey q') : q = q' := by
  refine eq_of_suffix hn hlt hq hq' ?_
  have h := congrArg suffixOf h
  rwa [valueKey, suffixOf_eventKey, valueKey, suffixOf_eventKey] at h

lemma eq_of_indexKey (h : indexKey q = indexKey q') : q = q' := by
  refine eq_of_suffix hn hlt hq hq' ?_
  have h := congrArg suffixOf h
  rwa [indexKey, valueKey, suffixOf_pendingKey, indexKey, valueKey, suffixOf_pendingKey] at h

end Same

/-- Keys of different kinds differ in their first byte. -/
lemma tag_ne {a b : UInt8} {s t : List UInt8} (h : a ≠ b) : a :: s ≠ b :: t :=
  fun hk => h (cons.inj hk).1

lemma indexKey_ne_valueKey : indexKey q ≠ valueKey q' := tag_ne (by decide)

/-- Each kind of key begins with a letter of its own. -/
lemma Holds.inv (h : Holds J c k x) : match k with
    | 118 :: _ => ∃ q ∈ J.values, k = valueKey q ∧ x = .value (q.2.toValueWrite.toRec q.2.status)
    | 112 :: _ => ∃ q ∈ J.values, q.2.status = .pending ∧ k = indexKey q ∧ x = .key (valueKey q)
    | 104 :: _ => ∃ q ∈ J.history, k = historyKey q ∧ x = .history q.2.toHistoryEntry.toRec
    | 109 :: _ => ∃ runID m, J.metas runID = some m ∧ k = metaKey runID ∧ x = .metadata m
    | 33 :: _ => ∃ n, c = some n ∧ x = .number n
    | _ => True := by
  cases h with
  | metadata h => exact ⟨_, _, h, rfl, rfl⟩
  | value h | history h => exact ⟨_, h, rfl, rfl⟩
  | pending h hp => exact ⟨_, h, hp, rfl, rfl⟩
  | counter h => exact ⟨_, h, rfl⟩

/-- What lies under a key stays there when more is to be found. -/
lemma Holds.mono {J' : Journal} (h : Holds J c k x) (hm : J'.metas = J.metas)
    (hv : J.values ⊆ J'.values)
    (hh : J.history ⊆ J'.history) : Holds J' c k x := by
  cases h with
  | metadata h => exact .metadata (hm ▸ h)
  | value h => exact .value (hv h)
  | pending h hp => exact .pending (hv h) hp
  | history h => exact .history (hh h)
  | counter h => exact .counter h

/-- A key that is neither for metadata nor for the counter ends in an arrival number
that was given out. -/
lemma Holds.place (hn : J.Numbered n) (h : Holds J c k x) :
    k.head? = some 109 ∨ k.head? = some 33 ∨ ∃ ts m, m < n ∧ suffixOf k = eventSuffix ts m := by
  cases h with
  | metadata _ => exact .inl rfl
  | value hq => exact .inr (.inr ⟨_, _, hn.values_lt _ hq, suffixOf_eventKey⟩)
  | pending hq _ => exact .inr (.inr ⟨_, _, hn.values_lt _ hq, suffixOf_pendingKey⟩)
  | history hq => exact .inr (.inr ⟨_, _, hn.history_lt _ hq, suffixOf_eventKey⟩)
  | counter _ => exact .inr (.inl rfl)

variable {ts : Int}

/-- Nothing lies under a key with a new arrival number. -/
lemma not_holds_of_new (hn : J.Numbered n) (hlt : n < 2 ^ 64)
    (hk : suffixOf k = eventSuffix ts n) (h109 : k.head? ≠ some 109) (h33 : k.head? ≠ some 33) :
    ¬ Holds J c k x := by
  intro h
  rcases h.place hn with h | h | ⟨ts', m, hm, hsuffix⟩
  · exact h109 h
  · exact h33 h
  · have := seq_of_eventSuffix hlt (by omega) (hk.symm.trans hsuffix)
    omega

/-! ## Arrivals -/

lemma represents_empty : Journal.empty.Represents none .empty := by
  refine KeyStore.agrees_empty.congr fun k x => ⟨False.elim, fun hh => ?_⟩
  cases hh with
  | metadata h | value h | pending h _ | history h | counter h => cases h

lemma numbered_empty (n : Nat) : Journal.empty.Numbered n := ⟨.nil, .nil, nofun, nofun, nofun⟩

lemma Numbered.mono (hn : J.Numbered n) (h : n ≤ n') : J.Numbered n' :=
  { hn with
    values_lt := fun q hq => (hn.values_lt q hq).trans_le h
    history_lt := fun q hq => (hn.history_lt q hq).trans_le h }

lemma Numbered.addValue (hn : J.Numbered n) (w : ValueWrite) :
    (J.addValue runID w n).Numbered (n + 1) where
  values := pairwise_concat.2 ⟨hn.values, hn.values_lt⟩
  history := hn.history
  values_lt := by
    rw [Journal.addValue, forall_mem_concat]
    exact ⟨(hn.mono n.le_succ).values_lt, n.lt_succ_self⟩
  history_lt := (hn.mono n.le_succ).history_lt
  apart := by
    rw [Journal.addValue, forall_mem_concat]
    exact ⟨hn.apart, fun h hh => (hn.history_lt h hh).ne'⟩

lemma Numbered.addHistory (hn : J.Numbered n) (h : HistoryEntry) :
    (J.addHistory runID h n).Numbered (n + 1) where
  values := hn.values
  history := pairwise_concat.2 ⟨hn.history, hn.history_lt⟩
  values_lt := (hn.mono n.le_succ).values_lt
  history_lt := by
    rw [Journal.addHistory, forall_mem_concat]
    exact ⟨(hn.mono n.le_succ).history_lt, n.lt_succ_self⟩
  apart q hq := by
    rw [Journal.addHistory, forall_mem_concat]
    exact ⟨hn.apart q hq, (hn.values_lt q hq).ne⟩

lemma Numbered.settle (hn : J.Numbered n) (p : String × ValueRecord → Bool) (st : ValueStatus) :
    (J.settle p st).Numbered n := by
  have hseq (q : String × ValueRecord) :
      (if p q then (q.1, { q.2 with status := st }) else q).2.seq = q.2.seq := by
    split <;> rfl
  refine ⟨?_, hn.history, ?_, hn.history_lt, ?_⟩
  · rw [Journal.settle, pairwise_map]
    exact hn.values.imp fun h => by rwa [hseq, hseq]
  · intro q hq
    obtain ⟨q₀, hq₀, rfl⟩ := mem_map.1 hq
    rw [hseq]
    exact hn.values_lt q₀ hq₀
  · intro q hq
    obtain ⟨q₀, hq₀, rfl⟩ := mem_map.1 hq
    rw [hseq]
    exact hn.apart q₀ hq₀

lemma Represents.addValue (h : J.Represents c db) (hn : J.Numbered n) (hlt : n < 2 ^ 64)
    (w : ValueWrite) :
    (J.addValue runID w n).Represents c
      ((db.set (eventKey 118 runID w.timestamp.nanos n) (.value (w.toRec .pending))).set
        (pendingKey runID w.taskID (eventKey 118 runID w.timestamp.nanos n))
        (.key (eventKey 118 runID w.timestamp.nanos n))) := by
  have hkey {x : Stored} : ¬ Holds J c (eventKey 118 runID w.timestamp.nanos n) x :=
    not_holds_of_new hn hlt suffixOf_eventKey (by simp [eventKey]) (by simp [eventKey])
  have hindex {x : Stored} :
      ¬ Holds J c (pendingKey runID w.taskID (eventKey 118 runID w.timestamp.nanos n)) x :=
    not_holds_of_new hn hlt suffixOf_pendingKey (by simp [pendingKey]) (by simp [pendingKey])
  refine (KeyStore.Agrees.set_new h (fun _ => hkey) fun _ _ => Iff.rfl).set_new ?_ fun k x =>
    ⟨fun hh => ?_, ?_⟩
  · rintro x (⟨hk, -⟩ | hx)
    · exact @indexKey_ne_valueKey (runID, ⟨w, .pending, n⟩) (runID, ⟨w, .pending, n⟩) hk
    · exact hindex hx
  · cases hh with
    | metadata h | history h | counter h => exact .inr (.inr (by constructor; exact h))
    | value hq =>
      rcases mem_append.1 hq with hq | hq
      · exact .inr (.inr (.value hq))
      · rw [mem_singleton.1 hq]
        exact .inr (.inl ⟨rfl, rfl⟩)
    | pending hq hp =>
      rcases mem_append.1 hq with hq | hq
      · exact .inr (.inr (.pending hq hp))
      · rw [mem_singleton.1 hq]
        exact .inl ⟨rfl, rfl⟩
  · rintro (⟨rfl, rfl⟩ | ⟨rfl, rfl⟩ | hh)
    · exact .pending (q := (runID, ⟨w, .pending, n⟩)) (mem_append_right _ (by simp)) rfl
    · exact .value (q := (runID, ⟨w, .pending, n⟩)) (mem_append_right _ (by simp))
    · exact hh.mono rfl (subset_append_left ..) (List.Subset.refl _)

lemma Represents.addHistory (h : J.Represents c db) (hn : J.Numbered n) (hlt : n < 2 ^ 64)
    (e : HistoryEntry) :
    (J.addHistory runID e n).Represents c
      (db.set (eventKey 104 runID e.timestamp.nanos n) (.history e.toRec)) := by
  have hkey {x : Stored} : ¬ Holds J c (eventKey 104 runID e.timestamp.nanos n) x :=
    not_holds_of_new hn hlt suffixOf_eventKey (by simp [eventKey]) (by simp [eventKey])
  refine KeyStore.Agrees.set_new h (fun _ => hkey) fun k x => ⟨fun hh => ?_, ?_⟩
  · cases hh with
    | metadata h | value h | counter h => exact .inr (by constructor; exact h)
    | pending h hp => exact .inr (.pending h hp)
    | history hq =>
      rcases mem_append.1 hq with hq | hq
      · exact .inr (.history hq)
      · rw [mem_singleton.1 hq]
        exact .inl ⟨rfl, rfl⟩
  · rintro (⟨rfl, rfl⟩ | hh)
    · exact .history (q := (runID, ⟨e, n⟩)) (mem_append_right _ (by simp))
    · exact hh.mono rfl (List.Subset.refl _) (subset_append_left ..)

variable {runID' : String}

lemma metaKey_inj (h : metaKey runID = metaKey runID') : runID = runID' := by
  rw [metaKey, metaKey, cons.injEq, cons.injEq] at h
  exact bytesOf_injective h.2.2

lemma metas_addMeta (m : RunMetadata) :
    (J.addMeta m).metas runID = if runID = m.runID then some m else J.metas runID :=
  Function.update_apply ..

lemma Represents.addMeta (h : J.Represents c db) (m : RunMetadata) :
    (J.addMeta m).Represents c (db.set (metaKey m.runID) (.metadata m)) := by
  refine (h.set _ _).congr fun k x => ?_
  constructor
  · rintro (⟨rfl, rfl⟩ | ⟨hne, hh⟩)
    · exact .metadata (by simp [metas_addMeta])
    · cases hh with
      | @metadata runID m' h =>
        refine .metadata ?_
        rw [metas_addMeta, if_neg fun hr => hne (by rw [hr]), h]
      | _ => constructor <;> assumption
  · intro hh
    cases hh with
    | @metadata runID m' h =>
      rw [metas_addMeta] at h
      split at h
      · rename_i hr
        rw [Option.some.injEq] at h
        exact .inl ⟨by rw [hr], by rw [h]⟩
      · rename_i hr
        exact .inr ⟨fun hk => hr (metaKey_inj hk), .metadata h⟩
    | _ => exact .inr ⟨tag_ne (by decide), by constructor <;> assumption⟩

lemma Represents.setCounter (h : J.Represents c db) (n : Nat) :
    J.Represents (some n) (db.set seqKey (.number n)) := by
  refine (h.set _ _).congr fun k x => ?_
  constructor
  · rintro (⟨rfl, rfl⟩ | ⟨hne, hh⟩)
    · exact .counter rfl
    · cases hh with
      | counter h => exact absurd rfl hne
      | _ => constructor <;> assumption
  · intro hh
    cases hh with
    | counter h =>
      rw [Option.some.injEq] at h
      exact .inl ⟨rfl, by rw [h]⟩
    | _ => exact .inr ⟨tag_ne (by decide), by constructor <;> assumption⟩

/-! ## Flips -/

variable {p : String × ValueRecord → Bool} {st : ValueStatus}

lemma mem_settle : q' ∈ (J.settle p st).values ↔
      ∃ q ∈ J.values, q' = if p q then (q.1, { q.2 with status := st }) else q := by
  rw [settle, mem_map]
  simp only [eq_comm]

/-- One round of the loop of a flip: a pending record is settled and its index entry
removed. -/
lemma Represents.settleOne (h : J.Represents c db) (hn : J.Numbered n) (hlt : n ≤ 2 ^ 64)
    (hq : q ∈ J.values) (hst : st ≠ .pending) :
    (J.settle (fun q' => indexKey q' = indexKey q) st).Represents c
      ((db.set (valueKey q) (.value (q.2.toValueWrite.toRec st))).delete (indexKey q)) := by
  have hone (q' : String × ValueRecord) (hq' : q' ∈ J.values) (hne : q' ≠ q) :
      q' ∈ (J.settle (fun q' => indexKey q' = indexKey q) st).values := by
    refine mem_settle.2 ⟨q', hq', ?_⟩
    rw [if_neg]
    simpa using fun hk => hne (eq_of_indexKey hn hlt hq' hq hk)
  refine ((h.set _ _).delete _).congr fun k x => ?_
  constructor
  · rintro ⟨hindex, ⟨rfl, rfl⟩ | ⟨hvalue, hh⟩⟩
    · exact .value (q := (q.1, { q.2 with status := st })) (mem_settle.2 ⟨q, hq, by simp⟩)
    · cases hh with
      | metadata h | history h | counter h => constructor; exact h
      | @value q' h => exact .value (hone q' h fun he => hvalue (by rw [he]))
      | @pending q' h hp => exact .pending (hone q' h fun he => hindex (by rw [he])) hp
  · intro hh
    cases hh with
    | metadata h | history h | counter h =>
      exact ⟨tag_ne (by decide), .inr ⟨tag_ne (by decide), by constructor; exact h⟩⟩
    | @value q'' hq'' =>
      obtain ⟨q', hq', rfl⟩ := mem_settle.1 hq''
      by_cases hk : indexKey q' = indexKey q
      · obtain rfl := eq_of_indexKey hn hlt hq' hq hk
        refine ⟨indexKey_ne_valueKey.symm, .inl ?_⟩
        simp [valueKey]
      · simp only [hk, decide_false, Bool.false_eq_true, if_false]
        refine ⟨indexKey_ne_valueKey.symm, .inr ⟨fun hv => ?_, .value hq'⟩⟩
        exact hk (by rw [eq_of_valueKey hn hlt hq' hq hv])
    | @pending q'' hq'' hp =>
      obtain ⟨q', hq', rfl⟩ := mem_settle.1 hq''
      by_cases hk : indexKey q' = indexKey q
      · simp only [hk, decide_true, if_true] at hp
        exact absurd hp hst
      · simp only [hk, decide_false, Bool.false_eq_true, if_false] at hp ⊢
        exact ⟨hk, .inr ⟨indexKey_ne_valueKey, .pending hq' hp⟩⟩

variable {p' : String × ValueRecord → Bool}

lemma settle_settle (hp' : ∀ q, p' (q.1, { q.2 with status := st }) = p' q) :
    (J.settle p st).settle p' st = J.settle (fun q => p q || p' q) st := by
  simp only [settle, map_map]
  congr 1
  refine map_congr_left fun q _ => ?_
  rw [Function.comp_apply]
  cases hp : p q with
  | true =>
    simp only [if_true, Bool.true_or, hp']
    split <;> rfl
  | false => simp

lemma settle_congr (h : ∀ q ∈ J.values, p q = p' q) : J.settle p st = J.settle p' st := by
  rw [settle, settle]
  congr 1
  exact map_congr_left fun q hq => by rw [h q hq]

variable {f : StatusFlip}

/-- The loop of a flip over index entries of pending records. -/
lemma settleEntries_represents (hst : f.newStatus ≠ .pending) {found : List (List UInt8 × Stored)}
    (hfound : ∀ e ∈ found, ∃ q ∈ J.values, q.2.status = .pending ∧
    e = (indexKey q, .key (valueKey q)))
    (hkeys : (found.map Prod.fst).Nodup) (h : J.Represents c db) (hn : J.Numbered n)
    (hlt : n ≤ 2 ^ 64) :
    ∃ db', settleEntries f db found = .ok db' ∧
      (J.settle (fun q => indexKey q ∈ found.map Prod.fst) f.newStatus).Represents c db' := by
  induction found generalizing J db with
  | nil =>
    refine ⟨db, rfl, ?_⟩
    simpa [settle] using h
  | cons e found ih =>
    rw [forall_mem_cons] at hfound
    rw [map_cons, nodup_cons] at hkeys
    obtain ⟨⟨q, hq, hp, rfl⟩, hfound⟩ := hfound
    have hget : db.get (valueKey q) = some (.value (q.2.toValueWrite.toRec q.2.status)) :=
      (h _ _).2 (.value hq)
    -- the entries that are left are still those of pending records
    have hleft : ∀ e ∈ found,
        ∃ q' ∈ (J.settle (fun q' => indexKey q' = indexKey q) f.newStatus).values,
        q'.2.status = .pending ∧ e = (indexKey q', .key (valueKey q')) := by
      intro e he
      obtain ⟨q', hq', hp', rfl⟩ := hfound e he
      have hne : indexKey q' ≠ indexKey q := fun hk => hkeys.1 (mem_map.2 ⟨_, he, hk⟩)
      exact ⟨q', mem_settle.2 ⟨q', hq', by simp [hne]⟩, hp', rfl⟩
    obtain ⟨db', hrun, hdb'⟩ := ih hleft hkeys.2 (h.settleOne hn hlt hq hst) (hn.settle _ _)
    refine ⟨db', ?_, ?_⟩
    · simp only [settleEntries, Stored.asKey, hget]
      exact hrun
    · rw [settle_settle (fun _ => rfl)] at hdb'
      have hsame : (fun q' => decide (indexKey q' = indexKey q) ||
          decide (indexKey q' ∈ found.map Prod.fst)) =
          fun q' : String × ValueRecord =>
            decide
              (indexKey q' ∈ ((indexKey q, Stored.key (valueKey q)) :: found).map Prod.fst) := by
        funext q'
        rw [← Bool.decide_or, decide_eq_decide, map_cons, mem_cons]
      rwa [hsame] at hdb'

/-- A status flip, `found` being the entries whose keys begin with the bytes it looks for. -/
lemma flip_represents (hst : f.newStatus ≠ .pending) (h : J.Represents c db)
    (hn : J.Numbered n) (hlt : n ≤ 2 ^ 64) :
    ∃ db', settleEntries f db (db.scan fun k => flipStem runID f.taskID <+: k) = .ok db' ∧
      (J.flip runID f).Represents c db' := by
  have hfound : ∀ e ∈ db.scan (fun k => flipStem runID f.taskID <+: k),
      ∃ q ∈ J.values, q.2.status = .pending ∧ e = (indexKey q, .key (valueKey q)) := by
    rintro ⟨k, x⟩ he
    obtain ⟨hget, t, rfl⟩ := KeyStore.mem_scan.1 he
    obtain ⟨q, hq, hp, hk, rfl⟩ := ((h _ x).1 hget).inv
    exact ⟨q, hq, hp, Prod.ext hk rfl⟩
  obtain ⟨db', hrun, hdb'⟩ :=
    settleEntries_represents hst hfound (nodup_of_increasing KeyStore.scan_increasing) h hn hlt
  refine ⟨db', hrun, ?_⟩
  rw [flip]
  rwa [settle_congr (fun q hq => ?_)] at hdb'
  rw [decide_eq_decide, mem_map]
  constructor
  · rintro ⟨⟨k, x⟩, he, rfl⟩
    obtain ⟨q', hq', hp, he'⟩ := hfound _ he
    obtain ⟨hk, -⟩ := Prod.mk.inj he'
    obtain rfl := eq_of_indexKey hn hlt hq hq' hk
    exact ⟨hp, isPrefixOf_iff_prefix.2 (KeyStore.mem_scan.1 he).2⟩
  · rintro ⟨hp, hhits⟩
    refine ⟨(indexKey q, .key (valueKey q)), KeyStore.mem_scan.2 ⟨?_, ?_⟩, rfl⟩
    · exact (h _ _).2 (.pending hq hp)
    · exact isPrefixOf_iff_prefix.1 hhits

/-! ## Ids that are told apart -/

/-- Neither id is the other one, a separator and more. -/
def Apart (a b : String) : Prop :=
  ¬ Extends bar (bytesOf a) (bytesOf b) ∧ ¬ Extends bar (bytesOf b) (bytesOf a)

lemma eq_of_apart {a b : String} {x y : List UInt8} (hab : Apart a b)
    (h : bytesOf a ++ bar :: x <+: bytesOf b ++ bar :: y) : a = b ∧ x <+: y := by
  rcases eq_or_extends h with ⟨heq, hxy⟩ | h | h
  · exact ⟨bytesOf_injective heq, hxy⟩
  · exact absurd h hab.1
  · exact absurd h hab.2

/-- With ids of this kind a flip hits the records of its run and task. -/
lemma hits_iff {taskID : String} (hrun : Apart runID q.1)
    (htask : runID = q.1 → Apart taskID q.2.taskID) :
    hits runID taskID q ↔ runID = q.1 ∧ taskID = q.2.taskID := by
  rw [hits, isPrefixOf_iff_prefix, flipStem, indexKey, pendingKey, cons_prefix_cons,
    cons_prefix_cons]
  constructor
  · rintro ⟨-, -, h⟩
    obtain ⟨hr, h⟩ := eq_of_apart hrun h
    exact ⟨hr, (eq_of_apart (htask hr) h).1⟩
  · rintro ⟨rfl, rfl⟩
    refine ⟨rfl, rfl, ?_⟩
    simp

/-- With ids of this kind the records under the keys of a run are the run's. -/
lemma eq_of_runStem {kind : UInt8} (hrun : Apart runID runID')
    (h : runStem kind runID <+: eventKey kind runID' ts n) :
    runID' = runID := by
  rw [runStem, eventKey, cons_prefix_cons, cons_prefix_cons] at h
  exact (eq_of_apart hrun h.2.2).1.symm

end Journal

end Blkit
