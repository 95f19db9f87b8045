import Blkit.Broker.Delivery
import Blkit.Broker.Records

/-!
# Which instances the broker knows

`Submit` makes a record with the key of the request and queues a start job under that key.
Other calls make a record too when there is none, a blank one without a key: responses,
subscriptions and reports for an id the broker does not hold.  What is said to hold for
unknown instances holds as long as the record a call finds was made by `Submit`
(`knows_instances`); a call that finds a blank record takes it for an instance.
-/

namespace Blkit

namespace Broker

open Relation Function Instance

variable {D : Type} {cfg : Config D} {w w' : World D} {a : Action D} {t t' : Topics D}
  {r : Instance D} {id : String}

/-- `Submit` has returned the id, for a request under this key: its start job was accepted. -/
def World.SubmittedUnder (w : World D) (id : String) (key : ProcessKey) : Prop :=
  ∃ job ∈ w.dispatch.jobs.accepted, job.starts id = true ∧ job.key = key

/-- What holds for unknown instances, and for keys. -/
structure KnowsInstances (w : World D) (a : Action D) (w' : World D) : Prop where
  /-- a response for an id that was never submitted enqueues no job -/
  response : ∀ c id requestID payload, a = .respondToInputRequest c id requestID payload →
    (∀ key, ¬ w.SubmittedUnder id key) → w'.dispatch.jobs.accepted = w.dispatch.jobs.accepted
  /-- a job carries the key its instance was submitted under -/
  key : ∀ job, w'.dispatch.jobs.accepted = w.dispatch.jobs.accepted ++ [job] →
    ∀ key, w'.SubmittedUnder job.instanceID key → job.key = key
  /-- a subscriber to an id without lifecycle events is told that there is no instance -/
  notFound : ∀ now id, a = .subscribeToInstance now id → w.closed = false →
    (∀ r, w.topics.insts id = some r → r.latestLifecycle = none) →
    ∃ s, w'.topics.subs = w.topics.subs ++ [s] ∧ s.ch.contents.head? = some (Topics.notFound id now)

/-- The actions that look up the record of an instance to enqueue a job or to replay. -/
inductive Concerns (w : World D) : Action D → String → Prop
  | respond (c : Call) (id requestID : String) (payload : D) : Concerns w
      (.respondToInputRequest c id requestID payload) id
  | subscribe (now : Int) (id : String) : Concerns w (.subscribeToInstance now id) id
  | resume (n : ℕ) (id : String) (h : w.resumes.timers[n]? = some ⟨id, .due⟩) : Concerns
      w (.resume n) id

/-- The record that is looked up, if there is one, was made by `Submit`; and who cancels or
terminates an instance names the key it was submitted under. -/
structure Genuine (w : World D) (a : Action D) : Prop where
  record : ∀ id r, Concerns w a id → w.topics.insts id = some r → r.submitted = true
  cancel : ∀ c order req, a = .cancel c order req → ∀ key,
    w.SubmittedUnder req.instanceID key → req.key = key
  terminate : ∀ c order req, a = .terminate c order req → ∀ key,
    w.SubmittedUnder req.instanceID key → req.key = key

/-! ## Records made by `Submit` -/

/-- Records made by `Submit` are those made by `Submit` before, and have kept their key and
their lifecycle. -/
def Topics.Inherits (t t' : Topics D) : Prop :=
  ∀ id r', t'.insts id = some r' → r'.submitted = true →
    ∃ r, t.insts id = some r ∧ r.submitted = true ∧ r'.key = r.key ∧
      (r.latestLifecycle ≠ none → r'.latestLifecycle ≠ none)

namespace Topics

lemma Inherits.refl : t.Inherits t := fun _ r hr hs => ⟨r, hr, hs, rfl, id⟩

/-- One record is written. -/
lemma inherits_update {r' : Instance D} (hinsts : t'.insts = update t.insts id (some r'))
    (hsubmitted : r'.submitted = (t.recordLocked id).submitted)
    (hkey : r'.key = (t.recordLocked id).key)
    (hlifecycle : (t.recordLocked id).latestLifecycle ≠ none → r'.latestLifecycle ≠ none) :
      t.Inherits t' := by
  intro id' r₁ hr₁ hs₁
  rw [hinsts, update_apply] at hr₁
  split at hr₁
  · rename_i hid
    cases hr₁
    subst hid
    rw [hsubmitted, recordLocked] at hs₁
    cases hold : t.insts id' with
    | none =>
      rw [hold] at hs₁
      cases hs₁
    | some r =>
      rw [recordLocked, hold] at hkey hlifecycle
      rw [hold] at hs₁
      exact ⟨r, rfl, hs₁, hkey, hlifecycle⟩
  · exact ⟨r₁, hr₁, hs₁, rfl, fun h => h⟩

end Topics

lemma Instance.latestLifecycle_retain {evt : InstanceEvent D} (h : r.latestLifecycle ≠ none) :
    (r.retain evt).latestLifecycle ≠ none := by
  rw [retain]
  split
  · simp
  · exact h
  · split <;> exact h
  · exact h
  · exact h

namespace Topics

lemma inherits_finish {wire : Wire D} {now retention : Int} {pace pace' : Pace} {o : Outcome D} :
    t.Inherits (t.finishLocked wire retention now pace pace' id o) := by
  cases hlive : (t.recordLocked id).finished with
  | true =>
    rw [finishLocked, if_pos hlive]
    exact .refl
  | false =>
    rw [finishLocked_eq hlive]
    cases t.extraEvent wire now id o with
    | none => exact inherits_update rfl submitted_retain key_retain latestLifecycle_retain
    | some x =>
      refine inherits_update rfl (submitted_retain.trans submitted_retain)
        (key_retain.trans key_retain) fun h => ?_
      exact latestLifecycle_retain (latestLifecycle_retain h)

lemma inherits_subscribe {cap : ℕ} {now : Int} : t.Inherits (t.subscribeToInstance cap now id) := by
  rw [subscribeToInstance]
  split
  · rename_i hid
    have hrecord : t.recordLocked id = .blank := by rw [recordLocked, hid]; rfl
    exact inherits_update rfl (by rw [hrecord]) (by rw [hrecord])
      (by rw [hrecord]; exact fun h => absurd rfl h)
  · rename_i r hid
    have hrecord : t.recordLocked id = r := by rw [recordLocked, hid]; rfl
    split
    · exact .refl
    · exact inherits_update rfl (by rw [hrecord]) (by rw [hrecord])
        (by rw [hrecord]; exact fun h => h)

end Topics

/-- Only `Submit` makes a record that counts as submitted. -/
lemma Step.inherits (h : Step cfg w a w') : w.topics.Inherits w'.topics ∨
      ∃ c id req job, w.Fresh id ∧ cfg.wire.job (World.startJob id req) = .ok job ∧
      w' = w.submitted cfg c id req job := by
  cases h with
  | submit c order id req job _ hfresh hjob => exact .inr ⟨c, id, req, job, hfresh, hjob, rfl⟩
  | cancelQueued c order req jobs _ _ | finished c id o _ => exact .inl Topics.inherits_finish
  | say a c id body _ _ | running c id _ | suspended c id resumeAt _ =>
    exact .inl (Topics.inherits_update rfl submitted_retain key_retain latestLifecycle_retain)
  | subscribe now id _ => exact .inl Topics.inherits_subscribe
  | unsubscribe i =>
    rw [Topics.unsubscribe]
    split
    · exact .inl .refl
    · split
      · exact .inl (Topics.inherits_update rfl rfl rfl fun h => h)
      · exact .inl .refl
  | sweep now order _ =>
    refine .inl fun id r hr hs => ?_
    exact ⟨r, (Option.filter_eq_some_iff.1 hr).1, hs, rfl, fun h => h⟩
  | close _ =>
    refine .inl fun id r hr hs => ?_
    obtain ⟨r₀, hr₀, rfl⟩ := Option.map_eq_some_iff.1 hr
    exact ⟨r₀, hr₀, hs, rfl, fun h => h⟩
  | _ => exact .inl .refl

/-- A record made by `Submit` has the key of its start job, and a lifecycle. -/
def World.Rooted (w : World D) : Prop :=
  ∀ id r, w.topics.insts id = some r → r.submitted = true → w.SubmittedUnder id r.key ∧
    r.latestLifecycle ≠ none

lemma SubmittedUnder.step {key : ProcessKey} (h : Step cfg w a w') (hid : w.SubmittedUnder id key) :
    w'.SubmittedUnder id key := by
  obtain ⟨job, hjob, hrest⟩ := hid
  exact ⟨job, (accepted_moves h.moves).subset hjob, hrest⟩

lemma Rooted.step (h : Step cfg w a w') (hw : w.Rooted) : w'.Rooted := by
  intro id r hr hs
  rcases h.inherits with hinherits | ⟨c, id', req, job, hfresh, hjob, hw'⟩
  · obtain ⟨r₀, hr₀, hs₀, hkey, hlifecycle⟩ := hinherits id r hr hs
    obtain ⟨hunder, hl⟩ := hw id r₀ hr₀ hs₀
    exact ⟨hkey ▸ SubmittedUnder.step h hunder, hlifecycle hl⟩
  · by_cases hid : id = id'
    · subst hid
      have hrecord : (w.topics.submit id req.key req.correlationKey).recordLocked id =
          { blank with
            key := req.key, correlationKey := req.correlationKey, submitted := true } := by
        show (update w.topics.insts id (some _) id).getD _ = _
        rw [update_self]
        rfl
      have hr' : r = ((w.topics.submit id req.key req.correlationKey).recordLocked id).retain
          ((w.topics.submit id req.key req.correlationKey).stamp cfg.wire c.now id
            (.lifecycle .pending)) := by
        rw [hw'] at hr
        exact Option.some.inj (hr.symm.trans (update_self _ _ _))
      obtain ⟨f, hf⟩ := cfg.wire.job_map _ _ hjob
      constructor
      · rw [hr', key_retain, hrecord, hw']
        refine ⟨job, List.mem_append_right _ (List.mem_singleton_self _), ?_, ?_⟩
        · rw [hf, Job.starts_map]
          exact decide_eq_true rfl
        · rw [hf]
          rfl
      · rw [hr', retain, Topics.body_stamp_lifecycle]
        simp
    · have hr₀ : w.topics.insts id = some r := by
        rw [hw'] at hr
        refine Eq.trans ?_ hr
        exact ((update_of_ne hid _ _).trans (update_of_ne hid _ _)).symm
      obtain ⟨hunder, hl⟩ := hw id r hr₀ hs
      exact ⟨SubmittedUnder.step h hunder, hl⟩

/-- An instance is submitted under one key. -/
lemma submittedUnder_unique {key key' : ProcessKey} (hw : w.StartsOnce)
    (h : w.SubmittedUnder id key)
    (h' : w.SubmittedUnder id key') : key = key' := by
  obtain ⟨job, hjob, hstarts, rfl⟩ := h
  obtain ⟨job', hjob', hstarts', rfl⟩ := h'
  obtain ⟨j, hj⟩ := List.mem_iff_getElem?.1 hjob
  obtain ⟨j', hj'⟩ := List.mem_iff_getElem?.1 hjob'
  have hjj : j = j' := by
    refine hw id j j' ?_ ?_
    · rw [JobTable.starts, hj]
      exact hstarts
    · rw [JobTable.starts, hj']
      exact hstarts'
  rw [hjj, hj'] at hj
  cases hj
  rfl

/-- A job that is accepted carries the key of its instance. -/
lemma Accepts.key {job : Job D} {key : ProcessKey} (h : Accepts cfg w a job)
    (hw : w.Rooted) (honce : w.StartsOnce)
    (hG : Genuine w a) (hunder : w.SubmittedUnder job.instanceID key) : job.key = key := by
  have hlookup {id : String} {rec : Instance D} (hc : Concerns w a id)
      (hrec : w.topics.insts id = some rec)
      (hkey : w.SubmittedUnder id key) : rec.key = key :=
    submittedUnder_unique honce (hw id rec hrec (hG.record id rec hc hrec)).1 hkey
  cases h with
  | submit c order id req _ hfresh hwire =>
    obtain ⟨f, rfl⟩ := cfg.wire.job_map _ _ hwire
    obtain ⟨job', hjob', hstarts, -⟩ := hunder
    rw [Job.instanceID_map] at hstarts
    exact absurd (Job.instanceID_of_starts hstarts) (hfresh.2.2 job' hjob')
  | send _ job₀ _ ha hwire =>
    obtain ⟨f, rfl⟩ := cfg.wire.job_map _ _ hwire
    rw [Job.instanceID_map] at hunder
    rw [Job.key_map]
    cases ha with
    | cancel c order req => exact hG.cancel c order req rfl key hunder
    | terminate c order req => exact hG.terminate c order req rfl key hunder
    | respond c id requestID payload rec hrec _ =>
      exact hlookup (.respond c id requestID payload) hrec hunder
  | resume n id rec _ hdue hrec _ hwire =>
    obtain ⟨f, rfl⟩ := cfg.wire.job_map _ _ hwire
    rw [Job.instanceID_map] at hunder
    exact hlookup (.resume n id hdue) hrec hunder

/-- What a run keeps. -/
def World.Traced (w : World D) : Prop := w.Rooted ∧ w.StartsOnce

lemma traced_new : (World.new : World D).Traced :=
  ⟨fun _ _ hr => (Option.some_ne_none _ hr.symm).elim, fun _ _ _ hj => absurd hj nofun⟩

/-- A subscriber to an id without a record is told so. -/
lemma subscribe_unknown {now : Int} (hopen : w.closed = false) (hid : w.topics.insts id = none)
    (h : (machine cfg).step w (.subscribeToInstance now id) = some w') :
    ∃ s, w'.topics.subs = w.topics.subs ++ [s] ∧ s.ch.contents.head? =
      some (Topics.notFound id now) := by
  obtain rfl := Step.of_subscribe hopen h
  refine ⟨⟨id,
    { Chan.make (max cfg.eventBufferSize 2).toNat with buffer := [Topics.notFound id now] },
    false, false, none⟩,
    ?_, rfl⟩
  simp only [Topics.subscribeToInstance, hid]

/-- In every run, an action that finds only records made by `Submit`, and names the right
key, treats unknown instances and keys as it should. -/
theorem knows_instances (cfg : Config D) (as : List (Action D)) (w : World D)
    (h : (machine cfg).exec .new as = some w) (a : Action D) (hG : Genuine w a) (w' : World D)
    (hstep : (machine cfg).step w a = some w') : KnowsInstances w a w' := by
  obtain ⟨hrooted, honce⟩ := Machine.exec_induction (I := World.Traced)
    (fun _ _ _ hw hstep =>
      ⟨Rooted.step (.of_step hstep) hw.1, StartsOnce.step (.of_step hstep) hw.2⟩) traced_new h
  have hs := Step.of_step hstep
  constructor
  · rintro c id requestID payload rfl hnever
    rcases hs.accepts with hsame | ⟨job, haccepts, -, -⟩
    · exact hsame
    · cases haccepts with
      | send _ _ _ ha _ =>
        cases ha with
        | respond _ _ _ _ rec hrec _ =>
          have hmade := hG.record id rec (.respond c id requestID payload) hrec
          exact absurd (hrooted id rec hrec hmade).1 (hnever rec.key)
  · intro job haccepted key hunder
    rcases hs.accepts with hsame | ⟨job', haccepts, hjobs, -⟩
    · rw [hsame] at haccepted
      exact absurd (congrArg List.length haccepted) (by simp)
    · have hjob : job' = job := by
        rw [hjobs] at haccepted
        exact List.singleton_inj.1 (List.append_cancel_left haccepted)
      subst hjob
      obtain ⟨job', hjob', hrest⟩ := hunder
      rw [haccepted, List.mem_append, List.mem_singleton] at hjob'
      rcases hjob' with hjob' | rfl
      · exact haccepts.key hrooted honce hG ⟨job', hjob', hrest⟩
      · exact hrest.2
  · rintro now id rfl hopen hnone
    cases hid : w.topics.insts id with
    | none => exact subscribe_unknown hopen hid hstep
    | some r =>
      have hmade := hG.record id r (.subscribe now id) hid
      exact absurd (hnone r hid) (hrooted id r hid hmade).2

/-- The instance was submitted: the response to its input request goes out under its key. -/
theorem knows_instances_response : ∃ w w', (machine sampleConfig).exec .new sampleSubmit = some w ∧
    (machine sampleConfig).step w (.respondToInputRequest (sampleCall 2) "i" "r" ()) = some w' ∧
    KnowsInstances w (.respondToInputRequest (sampleCall 2) "i" "r" ()) w' := by
  obtain ⟨w, w', h, h', hmade⟩ : ∃ w w', (machine sampleConfig).exec .new sampleSubmit = some w ∧
      (machine sampleConfig).step w (.respondToInputRequest (sampleCall 2) "i" "r" ()) = some w' ∧
      (w.topics.insts "i").all submitted := ⟨_, _, rfl, rfl, rfl⟩
  refine ⟨w, w', h, h', knows_instances sampleConfig sampleSubmit w h _
    ⟨?_, fun _ _ _ ha => (by cases ha), fun _ _ _ ha => (by cases ha)⟩ w' h'⟩
  intro id r hc hr
  cases hc
  rw [hr] at hmade
  exact hmade

/-- A response for an id nobody has submitted leaves a blank record behind; the next one finds
it and enqueues a job. -/
theorem unknown_response_enqueued :
    ∃ w w', (machine sampleConfig).exec .new [.respondToInputRequest (sampleCall 1) "x" "r" ()] =
      some w ∧
      (machine sampleConfig).step w (.respondToInputRequest (sampleCall 2) "x" "r" ()) = some w' ∧
      ¬ KnowsInstances w (.respondToInputRequest (sampleCall 2) "x" "r" ()) w' := by
  refine ⟨_, _, rfl, rfl, fun h => ?_⟩
  have hsame := h.response _ _ _ _ rfl fun key ⟨job, hjob, _⟩ => absurd hjob List.not_mem_nil
  exact absurd (congrArg List.length hsame) (by decide)

end Broker

end Blkit
