import Blkit.Broker.Message
import Blkit.Control.Timer
import Mathlib.Data.Finset.Basic
import Mathlib.Logic.Function.Basic

/-!
# The job table

The part of the in-memory broker that keeps jobs: a queue for each process key, the jobs in
flight, and for each instance a list of its jobs in flight.  An accepted job is known by its
number (its pointer in the code); `settled` and `timer` are the fields of the job that
change.  `removed` is kept for what is said about the table: the code does not have it.

Every accepted job is in one of three places: in the queue of its key, in flight, or gone.
A job that is gone stays gone.
-/

namespace Blkit

open List Function

namespace Broker

/-- The jobs of the broker. -/
structure JobTable (D : Type) where
  accepted : List (Job D)
  queues : ProcessKey → List ℕ
  inFlight : Finset ℕ
  byInst : String → List ℕ
  settled : ℕ → Bool
  timer : ℕ → Option ℕ
  timers : Timers ℕ
  removed : Finset ℕ

namespace JobTable

variable {D : Type}

/-- No jobs. -/
def empty : JobTable D := ⟨[], fun _ => [], ∅, fun _ => [], fun _ => false, fun _ => none, [], ∅⟩

variable (t : JobTable D)

/-- The process key of a job. -/
def keyOf (j : ℕ) : ProcessKey := t.accepted[j]?.elim .zero Job.key

/-- The instance of a job. -/
def instOf (j : ℕ) : String := t.accepted[j]?.elim "" Job.instanceID

/-- Whether a job starts the instance. -/
def starts (instanceID : String) (j : ℕ) : Bool :=
  t.accepted[j]?.elim false fun job => job.starts instanceID

/-- The table with other timers. -/
def setTimers (ts : Timers ℕ) : JobTable D := { t with timers := ts }

/-- The timers after the redelivery timer of a job, if it has one, was stopped. -/
def stopTimer (j : ℕ) : Timers ℕ := (t.timer j).elim t.timers t.timers.stop

/-- `enqueueLocked`, for a job that has come back from the wire. -/
def enqueue (job : Job D) : JobTable D :=
  { t with
    accepted := t.accepted ++ [job]
    queues := update t.queues job.key (t.queues job.key ++ [t.accepted.length]) }

/-- The job `j`, first in the queue of `k`, moves in flight. -/
def take (k : ProcessKey) (j : ℕ) (q : List ℕ) : JobTable D :=
  { t with
    queues := update t.queues k q
    settled := update t.settled j false
    inFlight := insert j t.inFlight
    byInst := update t.byInst (t.instOf j) (t.byInst (t.instOf j) ++ [j])
    timer := update t.timer j (some t.timers.length)
    timers := t.timers.start j }

/-- `takePendingLocked`. -/
def takePendingLocked : List ProcessKey → Option (ℕ × JobTable D)
  | [] => none
  | k :: ks =>
    match t.queues k with
    | [] => takePendingLocked ks
    | j :: q => some (j, t.take k j q)

/-- `releaseLocked`. -/
def releaseLocked (j : ℕ) : JobTable D :=
  { t with
    timers := t.stopTimer j
    timer := update t.timer j none
    inFlight := t.inFlight.erase j
    byInst := update t.byInst (t.instOf j) ((t.byInst (t.instOf j)).erase j) }

/-- A job in flight goes back to the front of its queue. -/
def putBack (j : ℕ) : JobTable D :=
  { t.releaseLocked j with queues := update t.queues (t.keyOf j) (j :: t.queues (t.keyOf j)) }

/-- One job of an instance is settled. -/
def settle (j : ℕ) : JobTable D :=
  { t with
    settled := update t.settled j true
    timers := t.stopTimer j
    timer := update t.timer j none
    inFlight := t.inFlight.erase j }

/-- `settleInstanceLocked`. -/
def settleInstanceLocked (instanceID : String) : JobTable D :=
  { (t.byInst instanceID).foldl settle t with byInst := update t.byInst instanceID [] }

/-- `removeQueuedStartLocked`: the table without the start job of the instance, if it is
still queued. -/
def removeQueuedStartLocked (key : ProcessKey) (instanceID : String) : Option (JobTable D) :=
  ((t.queues key).find? (t.starts instanceID)).map fun j =>
    { t with
      queues := update t.queues key ((t.queues key).eraseP (t.starts instanceID))
      removed := insert j t.removed }

/-- `Close` stops the timers of the jobs in flight. -/
def stopTimers : JobTable D :=
  { t with
    timers := t.timers.mapIdx fun i tm =>
      if tm.load ∈ t.inFlight ∧ t.timer tm.load = some i ∧
        tm.state = .armed then { tm with state := .spent }
      else tm }

/-! ## The three places of a job -/

variable {t} {j : ℕ}

/-- The job was settled or taken out of its queue. -/
def Gone (t : JobTable D) (j : ℕ) : Prop := t.settled j = true ∨ j ∈ t.removed

/-- Each accepted job is in one place, and the lists show it. -/
structure Sound (t : JobTable D) : Prop where
  queue_key : ∀ k j, j ∈ t.queues k → j < t.accepted.length ∧ t.keyOf j = k
  queue_nodup : ∀ k, (t.queues k).Nodup
  queue_idle : ∀ k j, j ∈ t.queues k → j ∉ t.inFlight ∧ ¬ t.Gone j
  flight : ∀ j ∈ t.inFlight, j < t.accepted.length ∧ ¬ t.Gone j
  inst : ∀ id j, j ∈ t.byInst id ↔ j ∈ t.inFlight ∧ t.instOf j = id
  inst_nodup : ∀ id, (t.byInst id).Nodup
  placed : ∀ j < t.accepted.length, (∃ k, j ∈ t.queues k) ∨ j ∈ t.inFlight ∨ t.Gone j
  fresh : ∀ j, t.accepted.length ≤ j → ¬ t.Gone j

lemma sound_empty : (empty : JobTable D).Sound := by
  constructor <;> simp [empty, Gone]

variable {job : Job D}

lemma elim_append {β : Type} {b : β} {f : Job D → β} (h : j < t.accepted.length) :
    (t.accepted ++ [job])[j]?.elim b f = t.accepted[j]?.elim b f := by
  rw [getElem?_append_left h]

lemma instOf_enqueue (h : j < t.accepted.length) : (t.enqueue job).instOf j = t.instOf j :=
  elim_append h

variable {id : String}

lemma starts_enqueue (h : j < t.accepted.length) :
    (t.enqueue job).starts id j = t.starts id j := elim_append h

variable {k : ProcessKey}

section Update

variable {κ : Type} [DecidableEq κ] {f : κ → List ℕ} {a : κ}

lemma mem_update_concat {b : κ} {i : ℕ} : i ∈ update f a (f a ++ [j]) b ↔
    i ∈ f b ∨ i = j ∧ b = a := by
  rw [update_apply]
  split
  all_goals
    rename_i hb
    simp [hb]

lemma nodup_update (hf : ∀ k, (f k).Nodup) {l : List ℕ} (hl : l.Nodup) (k : κ) :
    (update f a l k).Nodup := by
  rw [update_apply]
  split
  · exact hl
  · exact hf k

end Update

lemma mem_queues_enqueue :
    j ∈ (t.enqueue job).queues k ↔ j ∈ t.queues k ∨ j = t.accepted.length ∧ k = job.key :=
      mem_update_concat

lemma nodup_concat {l : List ℕ} (hl : l.Nodup) (hj : j ∉ l) : (l ++ [j]).Nodup :=
  hl.append (nodup_singleton _) (disjoint_singleton.2 hj)

lemma Sound.enqueue (h : t.Sound) (job : Job D) : (t.enqueue job).Sound := by
  have hlen : (t.enqueue job).accepted.length = t.accepted.length + 1 := by
    simp [JobTable.enqueue]
  constructor
  · intro k j hj
    rw [hlen]
    rcases mem_queues_enqueue.1 hj with hj | ⟨rfl, rfl⟩
    · obtain ⟨hlt, hkey⟩ := h.queue_key k j hj
      exact ⟨Nat.lt_succ_of_lt hlt, (elim_append hlt).trans hkey⟩
    · refine ⟨Nat.lt_succ_self _, ?_⟩
      rw [keyOf, JobTable.enqueue, getElem?_concat_length]
      rfl
  · exact nodup_update h.queue_nodup
      (nodup_concat (h.queue_nodup _) fun hmem => lt_irrefl _ (h.queue_key _ _ hmem).1)
  · intro k j hj
    rcases mem_queues_enqueue.1 hj with hj | ⟨rfl, -⟩
    · exact h.queue_idle k j hj
    · exact ⟨fun hmem => lt_irrefl _ (h.flight _ hmem).1, h.fresh _ le_rfl⟩
  · intro j hj
    rw [hlen]
    exact ⟨Nat.lt_succ_of_lt (h.flight j hj).1, (h.flight j hj).2⟩
  · intro id j
    refine (h.inst id j).trans (and_congr_right fun hj => ?_)
    rw [instOf_enqueue (h.flight j hj).1]
  · exact h.inst_nodup
  · intro j hj
    rw [hlen, Nat.lt_succ_iff_lt_or_eq] at hj
    rcases hj with hj | rfl
    · refine (h.placed j hj).imp_left ?_
      exact fun ⟨k, hk⟩ => ⟨k, mem_queues_enqueue.2 (.inl hk)⟩
    · exact .inl ⟨job.key, mem_queues_enqueue.2 (.inr ⟨rfl, rfl⟩)⟩
  · intro j hj
    rw [hlen] at hj
    exact h.fresh j (Nat.le_of_succ_le hj)

/-- The queue of its key, the flight and being gone, as the places a job has. -/
def Sits (t : JobTable D) (j : ℕ) (queued flies gone : Prop) : Prop :=
  (∀ k, j ∈ t.queues k ↔ queued ∧ t.keyOf j = k) ∧ (j ∈ t.inFlight ↔ flies) ∧ (t.Gone j ↔ gone)

/-- Jobs move between places: each is where it was, or was accepted and has one place now. -/
lemma Sound.moved (h : t.Sound) {t' : JobTable D} (hacc : t'.accepted = t.accepted)
    (hq : ∀ k, (t'.queues k).Nodup) (hb : ∀ id, (t'.byInst id).Nodup)
    (hinst : ∀ id j, j ∈ t'.byInst id ↔ j ∈ t'.inFlight ∧ t.instOf j = id)
    (hj : ∀ j, ((∀ k, j ∈ t'.queues k ↔ j ∈ t.queues k) ∧ (j ∈ t'.inFlight ↔ j ∈ t.inFlight) ∧
        (t'.Gone j ↔ t.Gone j)) ∨ j < t.accepted.length ∧
      (t'.Sits j True False False ∨ t'.Sits j False True False ∨ t'.Sits j False False True)) :
        t'.Sound := by
  have hplace (j : ℕ) : (∀ k, j ∈ t'.queues k →
        (j < t.accepted.length ∧ t'.keyOf j = k) ∧ j ∉ t'.inFlight ∧ ¬ t'.Gone j) ∧
      (j ∈ t'.inFlight → j < t.accepted.length ∧ ¬ t'.Gone j) ∧
      (j < t.accepted.length → (∃ k, j ∈ t'.queues k) ∨ j ∈ t'.inFlight ∨ t'.Gone j) ∧
      (t.accepted.length ≤ j → ¬ t'.Gone j) := by
    rcases hj j with ⟨hq, hf, hg⟩ | ⟨hlt, ⟨hq, hf, hg⟩ | ⟨hq, hf, hg⟩ | ⟨hq, hf, hg⟩⟩
    · simp only [hq, hf, hg, keyOf, hacc]
      exact ⟨fun k hk => ⟨h.queue_key k j hk, h.queue_idle k j hk⟩,
        h.flight j, h.placed j, h.fresh j⟩
    all_goals simp [hq, hf, hg, hlt]
  refine ⟨?_, hq, fun k j hk => ((hplace j).1 k hk).2, ?_, ?_, hb, ?_, ?_⟩
  all_goals simp only [hacc, instOf]
  · exact fun k j hk => ((hplace j).1 k hk).1
  · exact fun j => (hplace j).2.1
  · exact hinst
  · exact fun j => (hplace j).2.2.1
  · exact fun j => (hplace j).2.2.2

/-! ### Taking and putting back -/

/-- What is taken is the first job of one of the queues. -/
lemma takePendingLocked_eq_some {ks : List ProcessKey} {t' : JobTable D}
    (h : t.takePendingLocked ks = some (j, t')) :
    ∃ k ∈ ks, ∃ q, t.queues k = j :: q ∧ t' = t.take k j q := by
  induction ks with
  | nil => cases h
  | cons k ks ih =>
    rw [takePendingLocked] at h
    split at h
    · obtain ⟨k', hk', hrest⟩ := ih h
      exact ⟨k', mem_cons_of_mem _ hk', hrest⟩
    · rename_i j' q hq
      cases h
      exact ⟨k, mem_cons_self, q, hq, rfl⟩

section Take

variable {k : ProcessKey} {q : List ℕ} {j' : ℕ}

lemma gone_take (hj : ¬ t.Gone j) : (t.take k j q).Gone j' ↔ t.Gone j' := by
  show update t.settled j false j' = true ∨ j' ∈ t.removed ↔ _
  rw [update_apply]
  split
  · rename_i hjj
    rw [Gone, not_or] at hj
    simp [Gone, hjj, hj.1]
  · rfl

lemma Sound.mem_queues_remove {key : ProcessKey} {as bs : List ℕ} (h : t.Sound)
    (hq : t.queues key = as ++ j :: bs) {k : ProcessKey} {j' : ℕ} :
    j' ∈ update t.queues key (as ++ bs) k ↔ j' ∈ t.queues k ∧ j' ≠ j := by
  have hnodup := h.queue_nodup key
  rw [hq, nodup_middle, nodup_cons] at hnodup
  rw [update_apply]
  split
  · rename_i hk
    rw [hk, hq, perm_middle.mem_iff, mem_cons]
    constructor
    · exact fun hj' => ⟨.inr hj', fun heq => hnodup.1 (heq ▸ hj')⟩
    · exact fun ⟨hj', hne⟩ => hj'.resolve_left hne
  · rename_i hk
    refine ⟨fun hj' => ⟨hj', ?_⟩, fun hj' => hj'.1⟩
    rintro rfl
    have hmem : j' ∈ t.queues key := hq ▸ mem_append_right as mem_cons_self
    exact hk ((h.queue_key k j' hj').2.symm.trans (h.queue_key key j' hmem).2)

lemma Sound.mem_queues_take (h : t.Sound) (hq : t.queues k = j :: q) {k' : ProcessKey} :
    j' ∈ (t.take k j q).queues k' ↔ j' ∈ t.queues k' ∧ j' ≠ j :=
  @mem_queues_remove _ _ _ _ [] _ h hq _ _

lemma Sound.take (h : t.Sound) (hq : t.queues k = j :: q) : (t.take k j q).Sound := by
  have hj : j ∈ t.queues k := hq ▸ mem_cons_self
  obtain ⟨hidle, hgone⟩ := h.queue_idle k j hj
  have hmem (j' : ℕ) : j' ∈ (t.take k j q).inFlight ↔ j' = j ∨ j' ∈ t.inFlight := Finset.mem_insert
  refine h.moved rfl (nodup_update h.queue_nodup (nodup_cons.1 (hq ▸ h.queue_nodup k)).2)
    (nodup_update h.inst_nodup (nodup_concat (h.inst_nodup _) fun hmem =>
      hidle ((h.inst _ _).1 hmem).1)) ?_ ?_
  · intro id j'
    refine mem_update_concat.trans ?_
    rw [hmem, h.inst]
    constructor
    · rintro (⟨hj', hid⟩ | ⟨rfl, rfl⟩)
      · exact ⟨.inr hj', hid⟩
      · exact ⟨.inl rfl, rfl⟩
    · rintro ⟨rfl | hj', hid⟩
      · exact .inr ⟨rfl, hid.symm⟩
      · exact .inl ⟨hj', hid⟩
  · intro j'
    simp only [Sits, h.mem_queues_take hq, hmem, gone_take hgone]
    by_cases hjj : j' = j
    · exact .inr ⟨hjj ▸ (h.queue_key k j hj).1, .inr (.inl (by simp [hjj, hgone]))⟩
    · exact .inl (by simp [hjj])

end Take

/-- What concerns timers alone keeps the places of the jobs. -/
lemma Sound.timers (h : t.Sound) (ts : Timers ℕ) : (t.setTimers ts).Sound := { h with }

variable {j' : ℕ}

lemma mem_queues_putBack :
    j' ∈ (t.putBack j).queues k ↔ j' = j ∧ k = t.keyOf j ∨ j' ∈ t.queues k := by
  show j' ∈ update t.queues (t.keyOf j) _ k ↔ _
  rw [update_apply]
  split
  · rename_i hk
    rw [mem_cons, hk]
    simp
  · rename_i hk
    simp [hk]

lemma Sound.mem_byInst_release (h : t.Sound) :
    j' ∈ (t.releaseLocked j).byInst id ↔ j' ∈ t.byInst id ∧ j' ≠ j := by
  show j' ∈ update t.byInst (t.instOf j) _ id ↔ _
  rw [update_apply]
  split
  · rename_i hid
    rw [hid, (h.inst_nodup _).mem_erase_iff, and_comm]
  · rename_i hid
    refine ⟨fun hj' => ⟨hj', ?_⟩, fun hj' => hj'.1⟩
    rintro rfl
    exact hid ((h.inst _ _).1 hj').2.symm

lemma Sound.putBack (h : t.Sound) (hj : j ∈ t.inFlight) : (t.putBack j).Sound := by
  obtain ⟨hlt, hgone⟩ := h.flight j hj
  have hqueue {k : ProcessKey} : j ∉ t.queues k := fun hq => (h.queue_idle k j hq).1 hj
  have hmem (j' : ℕ) : j' ∈ (t.putBack j).inFlight ↔ j' ≠ j ∧ j' ∈ t.inFlight := Finset.mem_erase
  refine h.moved rfl (nodup_update h.queue_nodup ((h.queue_nodup _).cons hqueue))
    (nodup_update h.inst_nodup ((h.inst_nodup _).erase j)) ?_ ?_
  · intro id j'
    refine h.mem_byInst_release.trans ?_
    rw [h.inst, hmem]
    tauto
  · intro j'
    have hgone' : (t.putBack j).Gone j' ↔ t.Gone j' := .rfl
    simp only [Sits, mem_queues_putBack, hmem, hgone']
    by_cases hjj : j' = j
    · refine .inr ⟨hjj ▸ hlt, .inl ?_⟩
      simp [hjj, hgone, hqueue, eq_comm, keyOf, JobTable.putBack, releaseLocked]
    · exact .inl (by simp [hjj])

/-! ### Settling -/

section Settle

variable {l : List ℕ}

/-- What settling a list of jobs changes, and what it leaves alone. -/
lemma settle_fields :
    (l.foldl settle t).accepted = t.accepted ∧ (l.foldl settle t).queues = t.queues ∧
      (l.foldl settle t).byInst = t.byInst ∧ (l.foldl settle t).removed = t.removed := by
  induction l generalizing t with
  | nil => exact ⟨rfl, rfl, rfl, rfl⟩
  | cons j l ih => exact ih (t := t.settle j)

variable {j' : ℕ}

lemma settled_foldl : (l.foldl settle t).settled j' ↔ j' ∈ l ∨ t.settled j' := by
  induction l generalizing t with
  | nil => simp
  | cons j l ih =>
    rw [foldl_cons, ih, mem_cons]
    show j' ∈ l ∨ update t.settled j true j' = true ↔ _
    rw [update_apply]
    split
    all_goals
      rename_i hj
      simp [hj]

lemma inFlight_foldl : j' ∈ (l.foldl settle t).inFlight ↔ j' ∈ t.inFlight ∧ j' ∉ l := by
  induction l generalizing t with
  | nil => simp
  | cons j l ih =>
    rw [foldl_cons, ih, mem_cons]
    show j' ∈ t.inFlight.erase j ∧ j' ∉ l ↔ _
    rw [Finset.mem_erase]
    tauto

variable {id : String}

lemma gone_settleInstanceLocked :
    (t.settleInstanceLocked id).Gone j' ↔ j' ∈ t.byInst id ∨ t.Gone j' := by
  show (foldl settle t (t.byInst id)).settled j' = true ∨
    j' ∈ (foldl settle t (t.byInst id)).removed ↔ _
  rw [settled_foldl, settle_fields.2.2.2, or_assoc]
  rfl

lemma Sound.settleInstanceLocked (h : t.Sound) (id : String) :
    (t.settleInstanceLocked id).Sound := by
  obtain ⟨hacc, hqueues, -, -⟩ := @settle_fields D t (t.byInst id)
  have hq : (t.settleInstanceLocked id).queues = t.queues := hqueues
  have hmem (j' : ℕ) : j' ∈ (t.settleInstanceLocked id).inFlight ↔ j' ∈ t.inFlight ∧
      j' ∉ t.byInst id :=
    inFlight_foldl
  refine h.moved hacc (hq ▸ h.queue_nodup) (nodup_update h.inst_nodup .nil) ?_ ?_
  · intro id' j'
    rw [hmem]
    show j' ∈ update t.byInst id [] id' ↔ _
    rw [update_apply]
    split
    · rename_i hid
      rw [hid, h.inst]
      simp only [not_mem_nil, false_iff]
      tauto
    · rename_i hid
      rw [h.inst, h.inst]
      constructor
      · exact fun ⟨hf, hid'⟩ => ⟨⟨hf, fun hb => hid (hid'.symm.trans hb.2)⟩, hid'⟩
      · exact fun ⟨hf, hid'⟩ => ⟨hf.1, hid'⟩
  · intro j'
    simp only [Sits, hq, hmem, gone_settleInstanceLocked]
    by_cases hb : j' ∈ t.byInst id
    · have hf := ((h.inst _ _).1 hb).1
      have hqueue (k : ProcessKey) : j' ∉ t.queues k := fun hq => (h.queue_idle k j' hq).1 hf
      exact .inr ⟨(h.flight j' hf).1, .inr (.inr (by simp [hb, hqueue]))⟩
    · exact .inl (by simp [hb])

end Settle

/-! ### Removing a queued start job -/

section Remove

variable {key : ProcessKey} {id : String} {t' : JobTable D}

/-- What is removed is one job that was queued. -/
lemma removeQueuedStartLocked_eq_some (h : t.removeQueuedStartLocked key id = some t') :
    ∃ j, t.starts id j ∧ ∃ as bs, t.queues key = as ++ j :: bs ∧
      t' = { t with queues := update t.queues key (as ++ bs), removed := insert j t.removed } := by
  obtain ⟨j, hj, rfl⟩ := Option.map_eq_some_iff.1 h
  obtain ⟨hstarts, as, bs, hq, has⟩ := find?_eq_some_iff_append.1 hj
  refine ⟨j, hstarts, as, bs, hq, ?_⟩
  have herase : (t.queues key).eraseP (t.starts id) = as ++ bs := by
    rw [hq, eraseP_append_right _ fun b hb => by simpa using has b hb, eraseP_cons_of_pos hstarts]
  rw [herase]

variable {as bs : List ℕ}

/-- A job that was taken out of its queue is gone, and nothing else has moved. -/
lemma Sound.remove (h : t.Sound) (hq : t.queues key = as ++ j :: bs) :
    ({ t with queues := update t.queues key (as ++ bs)
              removed := insert j t.removed } : JobTable D).Sound := by
  have hj : j ∈ t.queues key := hq ▸ mem_append_right as mem_cons_self
  have hnodup := h.queue_nodup key
  rw [hq, nodup_middle] at hnodup
  refine h.moved rfl (nodup_update h.queue_nodup (nodup_cons.1 hnodup).2)
    h.inst_nodup h.inst fun j' => ?_
  simp only [Sits, h.mem_queues_remove hq, Gone, Finset.mem_insert]
  by_cases hjj : j' = j
  · exact .inr ⟨hjj ▸ (h.queue_key key j hj).1,
      .inr (.inr (by simp [hjj, (h.queue_idle key j hj).1]))⟩
  · exact .inl (by simp [hjj])

end Remove

/-! ## Moves -/

/-- What can happen to the table. -/
inductive Move (t : JobTable D) : JobTable D → Prop
  | accept (job : Job D) : Move t (t.enqueue job)
  | take (k : ProcessKey) (j : ℕ) (q : List ℕ) (hq : t.queues k = j :: q) : Move t (t.take k j q)
  | putBack (j : ℕ) (hj : j ∈ t.inFlight) : Move t (t.putBack j)
  | settle (id : String) : Move t (t.settleInstanceLocked id)
  | remove (key : ProcessKey) (as : List ℕ) (j : ℕ) (bs : List ℕ)
      (hq : t.queues key = as ++ j :: bs) :
    Move t { t with queues := update t.queues key (as ++ bs), removed := insert j t.removed }
  | fire (n : ℕ) (ts : Timers ℕ) (h : t.timers.fire n = some ts) : Move t (t.setTimers ts)
  | call (n j : ℕ) (ts : Timers ℕ) (h : t.timers.call n = some (j, ts)) : Move t (t.setTimers ts)
  | halt : Move t t.stopTimers

variable {t' : JobTable D}

/-- Every move keeps each job in one place. -/
lemma Move.sound (m : t.Move t') (h : t.Sound) : t'.Sound := by
  cases m with
  | accept job => exact h.enqueue job
  | take k j q hq => exact h.take hq
  | putBack j hj => exact h.putBack hj
  | settle id => exact h.settleInstanceLocked id
  | remove key as j bs hq => exact h.remove hq
  | fire _ ts _ | call _ _ ts _ => exact h.timers ts
  | halt => exact h.timers _

/-- No move brings a job back that is gone. -/
lemma Move.gone (m : t.Move t') (h : t.Sound) (hj : t.Gone j) : t'.Gone j := by
  cases m with
  | accept _ | putBack _ _ | fire _ _ _ | call _ _ _ _ | halt => exact hj
  | take k j' q hq => exact (gone_take (h.queue_idle k j' (hq ▸ mem_cons_self)).2).2 hj
  | settle id => exact gone_settleInstanceLocked.2 (.inr hj)
  | remove key as j' bs hq => exact hj.imp_right Finset.mem_insert_of_mem

/-- Accepted jobs stay what they are. -/
lemma Move.accepted (m : t.Move t') : t.accepted <+: t'.accepted := by
  cases m with
  | accept job => exact prefix_append _ _
  | settle id => exact (@settle_fields D t (t.byInst id)).1 ▸ prefix_rfl
  | _ => exact prefix_rfl

/-! ## Redelivery timers -/

/-- A job has a timer only in flight, and a timer that is armed is the one its job has. -/
structure Timed (t : JobTable D) : Prop where
  flight : ∀ j n, t.timer j = some n → j ∈ t.inFlight
  armed : ∀ n j, t.timers[n]? = some ⟨j, .armed⟩ → t.timer j = some n

lemma timed_empty : (empty : JobTable D).Timed := by
  constructor <;> simp [empty]

/-- A timer that is armed after the timer of `j` was stopped was armed before, and is not
the timer of `j`. -/
lemma armed_stopTimer {n : ℕ} (h : (t.stopTimer j)[n]? = some ⟨j', .armed⟩) :
    t.timers[n]? = some ⟨j', .armed⟩ ∧ t.timer j ≠ some n := by
  rw [stopTimer] at h
  cases hj : t.timer j with
  | none =>
    rw [hj] at h
    exact ⟨h, nofun⟩
  | some m =>
    rw [hj, Option.elim_some, Timers.getElem?_stop] at h
    split at h
    · obtain ⟨tm, -, htm⟩ := Option.map_eq_some_iff.1 h
      split at htm
      · cases htm
      · exact absurd (congrArg Timer.state htm) ‹_›
    · rename_i hmn
      exact ⟨h, fun heq => hmn (Option.some.inj heq)⟩

/-- Taking a job out of flight together with its timer. -/
lemma Timed.release (h : t.Timed) {t' : JobTable D} (hflight : t'.inFlight = t.inFlight.erase j)
    (htimer : t'.timer = update t.timer j none) (htimers : t'.timers = t.stopTimer j) :
      t'.Timed := by
  constructor
  · intro j' n hn
    rw [htimer, update_apply] at hn
    split at hn
    · cases hn
    · rw [hflight]
      exact Finset.mem_erase.2 ⟨‹_›, h.flight j' n hn⟩
  · intro n j' hn
    rw [htimers] at hn
    obtain ⟨hn, hj⟩ := armed_stopTimer hn
    have hj' := h.armed n j' hn
    rw [htimer, update_of_ne]
    · exact hj'
    · rintro rfl
      exact hj hj'

lemma Timed.settle_foldl (h : t.Timed) (l : List ℕ) : (l.foldl settle t).Timed := by
  induction l generalizing t with
  | nil => exact h
  | cons j l ih => exact ih (h.release rfl rfl rfl)

lemma Move.timed (m : t.Move t') (hs : t.Sound) (h : t.Timed) : t'.Timed := by
  cases m with
  | accept job | remove key as j bs hq => exact ⟨h.flight, h.armed⟩
  | take k j q hq =>
    constructor
    · intro j' n hn
      rw [show (t.take k j q).timer = update t.timer j _ from rfl, update_apply] at hn
      split at hn
      · exact Finset.mem_insert.2 (.inl ‹_›)
      · exact Finset.mem_insert_of_mem (h.flight j' n hn)
    · intro n j' hn
      show update t.timer j (some t.timers.length) j' = some n
      rw [show (t.take k j q).timers = t.timers.start j from rfl, Timers.getElem?_start] at hn
      split at hn
      · cases hn
        rw [update_self, ‹n = _›]
      · -- an older timer of `j` would show `j` in flight, but it was queued
        have hj' := h.armed n j' hn
        rw [update_of_ne]
        · exact hj'
        · rintro rfl
          exact (hs.queue_idle k j' (hq ▸ mem_cons_self)).1 (h.flight j' n hj')
  | putBack j hj => exact h.release rfl rfl rfl
  | settle id => exact ⟨(h.settle_foldl _).flight, (h.settle_foldl _).armed⟩
  | fire n ts hts => exact ⟨h.flight, fun n' j' hn' => h.armed n' j' (Timers.armed_fire hts hn')⟩
  | call n j ts hts => exact ⟨h.flight, fun n' j' hn' => h.armed n' j' (Timers.armed_call hts hn')⟩
  | halt =>
    refine ⟨h.flight, fun n j' hn => ?_⟩
    rw [stopTimers, getElem?_mapIdx] at hn
    obtain ⟨tm, htm, hn⟩ := Option.map_eq_some_iff.1 hn
    split at hn
    · cases hn
    · exact h.armed n j' (hn ▸ htm)

end JobTable

end Broker

end Blkit
