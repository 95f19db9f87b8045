import Blkit.Control.Pool

/-!
# Sweeping workers in Firestore

The janitor of `brokers/google-pubsub/registrystore.go` asks for the documents whose deadline
has passed and deletes them one after the other, with no condition.  A registration or a
heartbeat that comes in between makes a document live again, and the janitor deletes it all
the same.

A query gives the documents as they are when it is made.
-/

namespace Blkit.Firestore

open Prog List

/-- A worker's document as it was read: its deadline in nanoseconds, and which write it is
from. -/
structure Snapshot where
  workerID : String
  deadline : ℤ
  write : ℕ

structure Store where
  clock : ℕ
  docs : String → Option Snapshot
  writes : ℕ

inductive Cmd where
  | now
  | get (workerID : String)
  | set (workerID : String) (deadline : ℤ)
  | update (workerID : String) (deadline : ℤ)
  /-- Delete the document that was read before, as it is now. -/
  | delete (snap : Snapshot)
  | query (cutoff : ℤ)

/-- An update of a document that is not there fails. -/
abbrev Cmd.Reply : Cmd → Type
  | .now => ℕ
  | .get _ => Option Snapshot
  | .set .. => Unit
  | .update .. => Bool
  | .delete _ => Unit
  | .query cutoff => List { snap : Snapshot // snap.deadline < cutoff }

/-- The time that passes before a command, and the order of the documents. -/
structure Choice where
  wait : ℕ
  order : List String

namespace Store

variable (s : Store)

def empty (clock : ℕ) : Store := ⟨clock, fun _ => none, 0⟩

def write (workerID : String) (deadline : ℤ) : Store :=
  { s with
    docs := Function.update s.docs workerID (some ⟨workerID, deadline, s.writes⟩)
    writes := s.writes + 1 }

def erase (workerID : String) : Store := { s with docs := Function.update s.docs workerID none }

def expired (cutoff : ℤ) (order : List String) :
    List { snap : Snapshot // snap.deadline < cutoff } :=
  order.filterMap fun id => (s.docs id).bind fun snap =>
    if h : snap.deadline < cutoff then some ⟨snap, h⟩ else none

def run (c : Cmd) (h : Choice) : Option (Store × c.Reply) :=
  let s := { s with clock := s.clock + h.wait }
  match c with
  | .now => some (s, s.clock)
  | .get workerID => some (s, s.docs workerID)
  | .set workerID deadline => some (s.write workerID deadline, ())
  | .update workerID deadline =>
    some (if (s.docs workerID).isSome then (s.write workerID deadline, true) else (s, false))
  | .delete snap => some (s.erase snap.workerID, ())
  | .query cutoff => some (s, s.expired cutoff h.order)

end Store

def service : Service Store Cmd Cmd.Reply Choice where
  run := Store.run
  fallible
    | .now => false
    | _ => true

/-! ## The calls -/

inductive Failure where
  | unknownWorker
  | request

abbrev Act := Try Cmd Cmd.Reply Failure

def ask (c : Cmd) : Act c.Reply := must .request c

/-- `PutRegistrations`; the registrations it looks up first do not matter for the deadline. -/
def putRegistrations (workerID : String) (ttl : ℤ) : Act Unit := do
  let now ← ask .now
  let _ ← attempt _ (.get workerID)
  ask (.set workerID (now + ttl))

def touch (workerID : String) (ttl : ℤ) : Act Unit := do
  match ← ask (.get workerID) with
  | none => throw .unknownWorker
  | some doc =>
    let now ← ask .now
    check .unknownWorker (!decide (doc.deadline < now))
    let found ← ask (.update workerID (now + ttl))
    check .request found

def delete (workerID : String) : Act Unit := do
  match ← ask (.get workerID) with
  | none => throw .unknownWorker
  | some doc =>
    let now ← ask .now
    if doc.deadline < now then
      let _ ← attempt _ (.delete ⟨workerID, doc.deadline, doc.write⟩)
      throw .unknownWorker
    else ask (.delete ⟨workerID, doc.deadline, doc.write⟩)

/-- The loop of `sweepWorkers`. -/
def deleteAll : List Snapshot → Act Unit
  | [] => pure ()
  | snap :: snaps => do
    let _ ← attempt _ (.delete snap)
    deleteAll snaps

def sweepWorkers (pollInterval : ℕ) : Act Unit := do
  let now ← ask .now
  let snaps ← ask (.query (now - 2 * pollInterval))
  deleteAll (snaps.map Subtype.val)

inductive Call where
  | putRegistrations (workerID : String) (ttl : ℤ)
  | touch (workerID : String) (ttl : ℤ)
  | delete (workerID : String)
  | sweepWorkers (pollInterval : ℕ)

def Call.body : Call → Act Unit
  | .putRegistrations workerID ttl => Firestore.putRegistrations workerID ttl
  | .touch workerID ttl => Firestore.touch workerID ttl
  | .delete workerID => Firestore.delete workerID
  | .sweepWorkers pollInterval => Firestore.sweepWorkers pollInterval

/-- Any number of calls, at any time. -/
def system : System Store Call Cmd Cmd.Reply Choice (Except Failure Unit) where
  service := service
  body k := k.body.run
  admits _ _ := true

abbrev World := Pool Store Call Cmd Cmd.Reply (Except Failure Unit)

/-- The deletion that an action carries out: the call, the document as the call has read it
and as it is now, and the time. -/
def removal (w : World) : PoolAction Call Choice → Option (Call × Snapshot × Snapshot × ℕ)
  | .step i ch _ =>
    match w.threads[i]? with
    | some ⟨k, .ask (.delete snap) _⟩ =>
      (w.shared.docs snap.workerID).map fun doc => (k, snap, doc, w.shared.clock + ch.wait)
    | _ => none
  | _ => none

/-- A document whose deadline is ahead is removed only by a deletion of its worker. -/
def SparesLive (w : World) (a : PoolAction Call Choice) : Prop :=
  ∀ k snap doc t, removal w a = some (k, snap, doc, t) → (t : ℤ) < doc.deadline →
    k = .delete snap.workerID

/-- What the janitor deletes is still what its query has returned. -/
def SweepsAsRead (w : World) (a : PoolAction Call Choice) : Prop :=
  ∀ pollInterval snap doc t, removal w a = some (.sweepWorkers pollInterval, snap, doc, t) →
    doc.write = snap.write

/-! ## What a call knows -/

/-- What is known of a call: a time that has come, and the documents it was told of. -/
structure Known where
  call : Call
  time : ℕ
  seen : List Snapshot

def Call.Sweeps (k : Call) : Prop := ∃ pollInterval, k = .sweepWorkers pollInterval

def Known.hear (q : Known) : (c : Cmd) → Option c.Reply → Known
  | .now, some t => { q with time := t }
  | .query _, some snaps => { q with seen := snaps.map Subtype.val }
  | _, _ => q

/-- Only a deletion deletes its worker's document, and a sweeper those it was told of, which
had expired. -/
def Known.Allows (q : Known) : Cmd → Prop
  | .query cutoff => cutoff ≤ q.time
  | .delete snap => q.call = .delete snap.workerID ∨ q.call.Sweeps ∧ snap ∈ q.seen
  | _ => True

def rules : Protocol Known Cmd Cmd.Reply := hearing Known.Allows Known.hear

variable {q : Known} {c : Cmd}

/-- The program keeps to the rules. -/
abbrev Obedient {α : Type} (q : Known) (x : Act α) : Prop := Obeys rules (fun _ _ => True) q x.run

lemma obedient_ask (hc : q.Allows c) : Obedient q (ask c) := fun _ => ⟨_, ⟨hc, rfl⟩, trivial⟩

lemma obedient_check {b : Bool} {e : Failure} : Obedient q (check e b) := by
  cases b <;> trivial

lemma obedient_deleteAll {snaps : List Snapshot} (hq : q.call.Sweeps)
    (h : ∀ snap ∈ snaps, snap ∈ q.seen) : Obedient q (deleteAll snaps) := by
  induction snaps with
  | nil => trivial
  | cons snap snaps ih =>
    obtain ⟨hsnap, hsnaps⟩ := forall_mem_cons.1 h
    exact obeys_hearing_attempt (.inr ⟨hq, hsnap⟩) fun r => ih hsnaps

lemma obedient_body (k : Call) : Obedient ⟨k, 0, []⟩ k.body := by
  cases k with
  | putRegistrations workerID ttl =>
    refine obeys_hearing_must trivial trivial fun t => ?_
    exact obeys_hearing_attempt trivial fun r => obedient_ask trivial
  | touch workerID ttl =>
    refine obeys_hearing_must trivial trivial fun doc => ?_
    cases doc with
    | none => trivial
    | some doc =>
      refine obeys_hearing_must trivial trivial fun now => ?_
      refine obeys_try.2 (obedient_check.mono fun q a _ => ?_)
      cases a with
      | error e => trivial
      | ok a => exact obeys_hearing_must trivial trivial fun found => obedient_check
  | delete workerID =>
    refine obeys_hearing_must trivial trivial fun doc => ?_
    cases doc with
    | none => trivial
    | some doc =>
      refine obeys_hearing_must trivial trivial fun now => ?_
      split_ifs
      · exact obeys_hearing_attempt (.inl rfl) fun r => trivial
      · exact obedient_ask (.inl rfl)
  | sweepWorkers pollInterval =>
    refine obeys_hearing_must trivial trivial fun now => ?_
    refine obeys_hearing_must (Int.sub_le_self _ (by omega)) trivial fun snaps => ?_
    exact obedient_deleteAll ⟨_, rfl⟩ fun _ h => h

def discipline : Discipline system Known where
  rules := rules
  start k := ⟨k, 0, []⟩
  post _ _ _ := True
  obeys := obedient_body

/-! ## What is true of documents that were read -/

namespace Store

/-- The document is not of this store's future, and if it has not been written since, it is
still the same. -/
structure Remembers (s : Store) (snap : Snapshot) : Prop where
  written : snap.write < s.writes
  same : ∀ doc, s.docs snap.workerID = some doc → doc.write = snap.write → doc = snap

def Sound (s : Store) : Prop :=
  ∀ id doc, s.docs id = some doc → doc.workerID = id ∧ doc.write < s.writes

variable {s s' : Store} {id id' : String} {deadline : ℤ} {snap doc : Snapshot} {c : Cmd}
  {ch : Choice} {r : c.Reply}

lemma Sound.remembers (h : s.Sound) (hdoc : s.docs id = some doc) : s.Remembers doc := by
  obtain ⟨rfl, hlt⟩ := h id doc hdoc
  exact ⟨hlt, fun doc' h' _ => Option.some.inj (h'.symm.trans hdoc)⟩

lemma docs_write (hdoc : (s.write id deadline).docs id' = some doc) :
    s.docs id' = some doc ∨ doc.workerID = id' ∧ doc.write = s.writes := by
  have hdoc : Function.update s.docs id _ id' = some doc := hdoc
  rw [Function.update_apply] at hdoc
  split_ifs at hdoc with hid
  · cases hdoc
    exact .inr ⟨hid.symm, rfl⟩
  · exact .inl hdoc

/-- All that a command can do: time passes, and a document that was not there before is a new
write. -/
structure Follows (s s' : Store) (wait : ℕ) : Prop where
  clock : s'.clock = s.clock + wait
  writes : s.writes ≤ s'.writes
  docs : ∀ id doc, s'.docs id = some doc → s.docs id = some doc ∨
    doc.workerID = id ∧ doc.write = s.writes ∧ s.writes < s'.writes

lemma follows_run (h : s.run c ch = some (s', r)) : Follows s s' ch.wait := by
  have hwrite (id : String) (deadline : ℤ) :
      Follows s (write { s with clock := s.clock + ch.wait } id deadline) ch.wait := by
    refine ⟨rfl, Nat.le_succ _, fun id' doc hdoc => (docs_write hdoc).imp_right fun h => ?_⟩
    exact ⟨h.1, h.2, Nat.lt_succ_self _⟩
  have hsame : Follows s { s with clock := s.clock + ch.wait } ch.wait :=
    ⟨rfl, le_rfl, fun _ _ => .inl⟩
  cases c with
  | set id deadline =>
    cases h
    exact hwrite id deadline
  | update id deadline =>
    simp only [run] at h
    split_ifs at h
    · cases h
      exact hwrite id deadline
    · cases h
      exact hsame
  | delete snap =>
    cases h
    refine ⟨rfl, le_rfl, fun id doc hdoc => .inl ?_⟩
    have hdoc : Function.update s.docs snap.workerID none id = some doc := hdoc
    rw [Function.update_apply] at hdoc
    split_ifs at hdoc
    exact hdoc
  | now | get | query =>
    cases h
    exact hsame

variable {wait : ℕ}

lemma Sound.next (h : s.Sound) (hnext : Follows s s' wait) : s'.Sound := by
  intro id doc hdoc
  rcases hnext.docs id doc hdoc with hdoc | ⟨hid, hwrite, hlt⟩
  · exact ⟨(h id doc hdoc).1, (h id doc hdoc).2.trans_le hnext.writes⟩
  · exact ⟨hid, hwrite ▸ hlt⟩

lemma Remembers.next (h : s.Remembers snap) (hnext : Follows s s' wait) : s'.Remembers snap := by
  refine ⟨h.written.trans_le hnext.writes, fun doc hdoc heq => ?_⟩
  rcases hnext.docs _ doc hdoc with hdoc | ⟨-, hwrite, -⟩
  · exact h.same doc hdoc heq
  · exact absurd (heq.symm.trans hwrite) h.written.ne

lemma mem_expired {cutoff : ℤ} {order : List String}
    {x : { snap : Snapshot // snap.deadline < cutoff }} (h : x ∈ s.expired cutoff order) :
    ∃ id, s.docs id = some x.1 := by
  obtain ⟨id, -, hx⟩ := mem_filterMap.1 h
  obtain ⟨doc, hdoc, hx⟩ := Option.bind_eq_some_iff.1 hx
  split_ifs at hx
  cases hx
  exact ⟨id, hdoc⟩

end Store

/-- What a call knows is true. -/
structure Known.True (s : Store) (k : Call) (q : Known) : Prop where
  call : q.call = k
  time : q.time ≤ s.clock
  seen : ∀ snap ∈ q.seen, snap.deadline < s.clock ∧ s.Remembers snap

structure Truthful (s : Store) (xs : Ledger Call Known (Except Failure Unit)) : Prop where
  sound : s.Sound
  known : ∀ k q, (k, .inl q) ∈ xs → q.True s k

variable {s s' : Store} {k : Call}

lemma Known.True.next {wait : ℕ} (h : q.True s k) (hnext : s.Follows s' wait) : q.True s' k := by
  have hclock : s.clock ≤ s'.clock := hnext.clock ▸ Nat.le_add_right _ _
  refine ⟨h.call, h.time.trans hclock, fun snap hsnap => ?_⟩
  obtain ⟨hexpired, hrem⟩ := h.seen snap hsnap
  exact ⟨Int.lt_of_lt_of_le hexpired (Int.ofNat_le.2 hclock), hrem.next hnext⟩

/-- What a call learns is true. -/
lemma Known.True.learn {ch : Choice} {r : c.Reply} (hs : s.Sound) (h : q.True s k)
    (hrun : s.run c ch = some (s', r)) (hallows : q.Allows c) : (q.hear c (some r)).True s' k := by
  have hnext := Store.follows_run hrun
  have htrue := h.next hnext
  cases c with
  | now =>
    cases hrun
    exact ⟨htrue.call, le_rfl, htrue.seen⟩
  | query cutoff =>
    cases hrun
    refine ⟨htrue.call, htrue.time, fun snap hsnap => ?_⟩
    obtain ⟨x, hx, rfl⟩ := mem_map.1 hsnap
    obtain ⟨id, hdoc⟩ := Store.mem_expired hx
    have hcutoff : cutoff ≤ q.time := hallows
    refine ⟨Int.lt_of_lt_of_le x.2 (Int.le_trans hcutoff (Int.ofNat_le.2 htrue.time)), ?_⟩
    exact (hs.next hnext).remembers hdoc
  | get | set | update | delete => exact htrue

lemma keeper : discipline.Keeper (fun _ _ => True) Truthful where
  call w xs k _ _ _ hI := by
    refine ⟨hI.sound, fun k' q hq => ?_⟩
    rcases mem_append.1 hq with hq | hq
    · exact hI.known k' q hq
    · cases mem_singleton.1 hq
      exact ⟨rfl, Nat.zero_le _, nofun⟩
  ret s xs i k q a hi _ hI := by
    refine ⟨hI.sound, fun k' q' hq => ?_⟩
    rcases mem_or_eq_of_mem_set hq with hq | hq
    · exact hI.known k' q' hq
    · cases hq
  step w xs i ch heard k c q s r q' _ _ _ hi _ hrun hrules hI := by
    have hnext := Store.follows_run hrun
    have hq := hI.known k q (mem_of_getElem? hi)
    obtain ⟨hallows, rfl⟩ := hrules
    refine ⟨hI.sound.next hnext, fun k' q'' hq' => ?_⟩
    rcases mem_or_eq_of_mem_set hq' with hq' | heq
    · exact (hI.known k' q'' hq').next hnext
    · cases heq
      cases heard with
      | false => cases c <;> exact hq.next hnext
      | true => exact hq.learn hI.sound hrun hallows
  fail w xs i k c q q' _ _ _ hi _ hrules hI := by
    obtain ⟨-, rfl⟩ := hrules
    refine ⟨hI.sound, fun k' q'' hq' => ?_⟩
    rcases mem_or_eq_of_mem_set hq' with hq' | heq
    · exact hI.known k' q'' hq'
    · cases heq
      cases c <;> exact hI.known k q (mem_of_getElem? hi)

lemma of_removal {w : World} {a : PoolAction Call Choice} {snap doc : Snapshot} {t : ℕ}
    (h : removal w a = some (k, snap, doc, t)) :
    (∃ (i : ℕ) (p : _), w.threads[i]? = some ⟨k, .ask (.delete snap) p⟩) ∧
      w.shared.docs snap.workerID = some doc ∧ w.shared.clock ≤ t := by
  unfold removal at h
  split at h
  · split at h
    · rename_i hi
      obtain ⟨doc', hdoc, heq⟩ := Option.map_eq_some_iff.1 h
      cases heq
      exact ⟨⟨_, _, hi⟩, hdoc, Nat.le_add_right _ _⟩
    · cases h
  · cases h

/-- A live document is removed for a deletion of its worker, or for a sweeper that was told of
an older write. -/
lemma cases_of_removal {w : World} {xs : Ledger Call Known (Except Failure Unit)}
    {a : PoolAction Call Choice} {snap doc : Snapshot} {t : ℕ} (hxs : discipline.Tracked xs w)
    (hI : Truthful w.shared xs) (h : removal w a = some (k, snap, doc, t))
    (hlive : (t : ℤ) < doc.deadline) :
    k = .delete snap.workerID ∨ k.Sweeps ∧ doc.write ≠ snap.write := by
  obtain ⟨⟨i, p, hi⟩, hdoc, ht⟩ := of_removal h
  obtain ⟨q, hq, hobeys⟩ := hxs.ask hi
  obtain ⟨_, ⟨hsnap, -⟩, -⟩ := hobeys none
  have htrue := hI.known k q (mem_of_getElem? hq)
  have hsnap : q.call = .delete snap.workerID ∨ q.call.Sweeps ∧ snap ∈ q.seen := hsnap
  rw [htrue.call] at hsnap
  rcases hsnap with hcall | ⟨hcall, hseen⟩
  · exact .inl hcall
  · obtain ⟨hexpired, hrem⟩ := htrue.seen snap hseen
    refine .inr ⟨hcall, fun heq => ?_⟩
    rw [hrem.same doc hdoc heq] at hlive
    omega

/-- In every run in which the janitor deletes documents only as it has read them, live ones are
removed only by a deletion of their worker. -/
theorem live_removed_only_by_delete {clock : ℕ} {as : List (PoolAction Call Choice)}
    (h : system.machine.Along SweepsAsRead ⟨.empty clock, []⟩ as) :
    system.machine.Along SparesLive ⟨.empty clock, []⟩ as := by
  have hstart : Truthful (.empty clock) [] := ⟨nofun, nofun⟩
  refine h.along (I := fun w => ∃ xs, discipline.Tracked xs w ∧ Truthful w.shared xs)
    (fun w a w' _ hw hstep => keeper.next (System.Step.of_step hstep) trivial hw)
    (fun w a hP hw k snap doc t hrem hlive => ?_) ⟨[], fun _ => .none, hstart⟩
  obtain ⟨xs, hxs, hI⟩ := hw
  rcases cases_of_removal hxs hI hrem hlive with hk | ⟨⟨pollInterval, rfl⟩, hne⟩
  · exact hk
  · exact absurd (hP pollInterval snap doc t hrem) hne

/-- The test of a run. -/
def sweepsAsRead (w : World) (a : PoolAction Call Choice) : Bool :=
  match removal w a with
  | some (.sweepWorkers _, snap, doc, _) => doc.write == snap.write
  | _ => true

lemma sweepsAsRead_iff {w : World} {a : PoolAction Call Choice} (h : sweepsAsRead w a = true) :
    SweepsAsRead w a := by
  intro pollInterval snap doc t hrem
  rw [sweepsAsRead, hrem] at h
  exact beq_iff_eq.1 h

/-- Two workers register, the first for a short time; the janitor comes when this has passed. -/
def expiredSweep : List (PoolAction Call Choice) :=
  [.call (.putRegistrations "w" 5), .step 0 ⟨0, []⟩ true, .step 0 ⟨0, []⟩ true,
    .step 0 ⟨0, []⟩ true, .call (.putRegistrations "v" 50), .step 1 ⟨0, []⟩ true,
    .step 1 ⟨0, []⟩ true, .step 1 ⟨0, []⟩ true, .call (.sweepWorkers 1), .step 2 ⟨9, []⟩ true,
    .step 2 ⟨0, ["w", "v"]⟩ true, .step 2 ⟨0, []⟩ true]

/-- The janitor deletes the one that has expired. -/
theorem expired_worker_swept :
    (system.machine.exec ⟨.empty 0, []⟩ expiredSweep).map (fun w =>
      ((w.shared.docs "w").isSome, (w.shared.docs "v").isSome)) = some (false, true) ∧
    system.machine.Along SparesLive ⟨.empty 0, []⟩ expiredSweep :=
  ⟨rfl, live_removed_only_by_delete
    (Machine.along_of_checks (fun _ _ => sweepsAsRead_iff) (by rfl))⟩

/-- A worker registers and expires; the janitor has been told of it when it registers again. -/
def renewedSweep : List (PoolAction Call Choice) :=
  [.call (.putRegistrations "w" 5), .step 0 ⟨0, []⟩ true, .step 0 ⟨0, []⟩ true,
    .step 0 ⟨0, []⟩ true, .call (.sweepWorkers 1), .step 1 ⟨9, []⟩ true,
    .step 1 ⟨0, ["w"]⟩ true, .call (.putRegistrations "w" 5), .step 2 ⟨0, []⟩ true,
    .step 2 ⟨0, []⟩ true, .step 2 ⟨0, []⟩ true]

/-- The janitor deletes the new registration. -/
theorem live_worker_swept : ∃ w, system.machine.exec ⟨.empty 0, []⟩ renewedSweep = some w ∧
    ¬ SparesLive w (.step 1 ⟨0, []⟩ true) := by
  refine ⟨_, rfl, fun h => ?_⟩
  have hk := h (.sweepWorkers 1) ⟨"w", 5, 0⟩ ⟨"w", 14, 1⟩ 9 rfl (by decide)
  cases hk

end Blkit.Firestore
