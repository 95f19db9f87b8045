import Blkit.Broker.World
import Mathlib.Logic.Relation

/-!
# Where the jobs are

Every action is a sequence of moves of the job table, so what each move keeps holds in every
run: an accepted job is in one place, and one that is gone stays gone.
-/

namespace Blkit

namespace Broker

open Relation

variable {D : Type} {cfg : Config D} {w w' : World D} {closed : Bool} {d d' : Dispatch D}

/-- What a fetch loop or a redelivery timer does is a sequence of moves. -/
lemma Dispatch.Effect.moves {a : FetchAction} (h : Dispatch.Effect closed d a d') :
    ReflTransGen JobTable.Move d.jobs d'.jobs := by
  cases h with
  | quiet hjobs _ _
  | hand i j n _ hjobs _ _
  | quit i j n _ _ hjobs _ _
  | drop i j n _ _ _ hjobs _ _ => exact hjobs ▸ .refl
  | take i k j q _ _ hq hjobs _ _ => exact hjobs ▸ .single (.take k j q hq)
  | putBack i j n _ _ _ hj hjobs _ _ => exact hjobs ▸ .single (.putBack j hj)
  | timeOut n ts hts hjobs _ _ => exact hjobs ▸ .single (.fire n ts hts)
  | expire n j ts hts hjobs _ _ => exact hjobs ▸ .single (.call n j ts hts)
  | redeliver n j ts hts _ hj hjobs _ _ =>
    rw [hjobs]
    exact .tail (.single (.call n j ts hts)) (.putBack j hj)

variable {a : Action D}

/-- What an action does to the jobs is a sequence of moves. -/
lemma Step.moves (h : Step cfg w a w') :
    ReflTransGen JobTable.Move w.dispatch.jobs w'.dispatch.jobs := by
  cases h with
  | fetch a d hd => exact (Dispatch.Effect.of_step hd).moves
  | submit c order id req job _ _ _ | resume n id resumes rec job _ _ _ _ _ =>
    exact .single (.accept job)
  | cancelQueued c order req jobs _ hjobs =>
    obtain ⟨j, -, as, bs, hq, rfl⟩ := JobTable.removeQueuedStartLocked_eq_some hjobs
    exact .tail (.single (.remove req.key as j bs hq)) (.settle req.instanceID)
  | send a job job' _ _ _ => exact .single (.accept job')
  | suspended c id resumeAt _ | finished c id o _ => exact .single (.settle id)
  | close _ => exact .single .halt
  | _ => exact .refl

variable {t t' : JobTable D}

/-- What every move keeps is kept by every action. -/
lemma moves_induction {I : JobTable D → Prop} (hI : ∀ t t', t.Move t' → I t → I t')
    (h : ReflTransGen JobTable.Move t t') (ht : I t) : I t' := by
  induction h with
  | refl => exact ht
  | tail _ hm ih => exact hI _ _ hm ih

/-- The jobs of a broker are each in one place, and timers are kept for jobs in flight. -/
def World.Sound (w : World D) : Prop := w.dispatch.jobs.Sound ∧ w.dispatch.jobs.Timed

lemma sound_new : (World.new : World D).Sound := ⟨JobTable.sound_empty, JobTable.timed_empty⟩

lemma Step.sound (h : Step cfg w a w') (hw : w.Sound) : w'.Sound :=
  moves_induction (I := fun t => t.Sound ∧ t.Timed)
    (fun _ _ m ht => ⟨m.sound ht.1, m.timed ht.1 ht.2⟩) h.moves hw

lemma sound_step (w : World D) (a : Action D) (w' : World D) (hw : w.Sound)
    (h : (machine cfg).step w a = some w') :
    w'.Sound := (Step.of_step h).sound hw

lemma sound_exec {as : List (Action D)} (h : (machine cfg).exec .new as = some w) : w.Sound :=
  Machine.exec_induction sound_step sound_new h

variable {j : ℕ}

/-- A job that is gone stays gone. -/
lemma gone_moves (h : ReflTransGen JobTable.Move t t') (ht : t.Sound) (hj : t.Gone j) : t'.Gone j :=
  (moves_induction (I := fun t => t.Sound ∧ t.Gone j)
    (fun _ _ m ht => ⟨m.sound ht.1, m.gone ht.1 ht.2⟩) h ⟨ht, hj⟩).2

/-- Accepted jobs keep their numbers. -/
lemma accepted_moves (h : ReflTransGen JobTable.Move t t') : t.accepted <+: t'.accepted := by
  induction h with
  | refl => exact List.prefix_rfl
  | tail _ hm ih => exact ih.trans hm.accepted

/-! ## Jobs that are accepted -/

/-- The job that an action brings into the table, as it comes back from the wire. -/
inductive Accepts (cfg : Config D) (w : World D) : Action D → Job D → Prop
  | submit (c : Call) (order : List ℕ) (id : String) (req : StartRequest D)
      (job : Job D) (hfresh : w.Fresh id)
      (hjob : cfg.wire.job (World.startJob id req) = .ok job) : Accepts cfg w
        (.submit c order id req) job
  | send (a : Action D) (job job' : Job D) (ha : Sends w a job)
      (hjob : cfg.wire.job job = .ok job') :
    Accepts cfg w a job'
  | resume (n : ℕ) (id : String) (rec : Instance D) (job : Job D)
      (hdue : w.resumes.timers[n]? = some ⟨id, .due⟩) (hrec : w.topics.insts id = some rec)
        (hlive : rec.finished = false) (hjob : cfg.wire.job ⟨rec.key, .resume id⟩ = .ok job) :
    Accepts cfg w (.resume n) job

lemma JobTable.accepted_settle {id : String} : (t.settleInstanceLocked id).accepted = t.accepted :=
  settle_fields.1

lemma Dispatch.Effect.accepted {a : FetchAction}
    (h : Dispatch.Effect closed d a d') : d'.jobs.accepted = d.jobs.accepted := by
  cases h with
  | quiet hjobs _ _
  | take i k j q _ _ hq hjobs _ _
  | hand i j n _ hjobs _ _
  | quit i j n _ _ hjobs _ _
  | drop i j n _ _ _ hjobs _ _
  | putBack i j n _ _ _ hj hjobs _ _
  | timeOut n ts hts hjobs _ _
  | expire n j ts hts hjobs _ _
  | redeliver n j ts hts _ hj hjobs _ _ => exact (congrArg JobTable.accepted hjobs).trans rfl

/-- An action accepts no job, or one, which it appends to its queue; then it finishes no
instance. -/
lemma Step.accepts (h : Step cfg w a w') : w'.dispatch.jobs.accepted = w.dispatch.jobs.accepted ∨
      ∃ job, Accepts cfg w a job ∧ w'.dispatch.jobs = w.dispatch.jobs.enqueue job ∧
        w'.topics.ended = w.topics.ended := by
  cases h with
  | fetch a d hd => exact .inl (Dispatch.Effect.of_step hd).accepted
  | submit c order id req job _ hfresh hjob =>
    exact .inr ⟨job, .submit c order id req job hfresh hjob, rfl, rfl⟩
  | cancelQueued c order req jobs _ hjobs =>
    obtain ⟨j, -, as, bs, hq, rfl⟩ := JobTable.removeQueuedStartLocked_eq_some hjobs
    exact .inl JobTable.accepted_settle
  | send a job job' _ ha hjob => exact .inr ⟨job', .send a job job' ha hjob, rfl, rfl⟩
  | suspended c id resumeAt _ | finished c id o _ => exact .inl JobTable.accepted_settle
  | resume n id resumes rec job _ hcall hrec hlive hjob =>
    exact .inr ⟨job, .resume n id rec job (Resumes.due_of_call hcall) hrec hlive hjob, rfl, rfl⟩
  | _ => exact .inl rfl

/-- A job that is new is queued. -/
lemma Step.queued_new (h : Step cfg w a w') (hj : w.dispatch.jobs.accepted.length ≤ j)
    (hj' : j < w'.dispatch.jobs.accepted.length) : ∃ k, j ∈ w'.dispatch.jobs.queues k := by
  rcases h.accepts with hsame | ⟨job, -, hjobs, -⟩
  · rw [hsame] at hj'
    exact absurd hj' (not_lt.2 hj)
  · rw [hjobs] at hj' ⊢
    have hlen : j < w.dispatch.jobs.accepted.length + 1 := by simpa [JobTable.enqueue] using hj'
    exact ⟨job.key,
      JobTable.mem_queues_enqueue.2 (.inr ⟨Nat.le_antisymm (Nat.le_of_lt_succ hlen) hj, rfl⟩)⟩

/-! ## The three places -/

inductive Place where
  | queued | inFlight | gone
deriving DecidableEq, Repr

namespace JobTable

variable (t : JobTable D) (j : ℕ)

/-- The job is in a place as it should be: in one slot of the queue of its own key, or in
flight and listed once, under its own instance, or gone. -/
def At : Place → Prop
  | .queued => (t.queues (t.keyOf j)).count j = 1 ∧ ∀ k ≠ t.keyOf j, j ∉ t.queues k
  | .inFlight => j ∈ t.inFlight ∧ (t.byInst (t.instOf j)).count j = 1 ∧
      ∀ id ≠ t.instOf j, j ∉ t.byInst id
  | .gone => t.Gone j

/-- There is a trace of the job in a place. -/
def Shows : Place → Prop
  | .queued => ∃ k, j ∈ t.queues k
  | .inFlight => j ∈ t.inFlight ∨ ∃ id, j ∈ t.byInst id
  | .gone => t.Gone j

variable {t} {j}

lemma Sound.shows_inFlight (h : t.Sound) : t.Shows j .inFlight ↔ j ∈ t.inFlight := by
  refine ⟨fun hj => hj.elim id fun ⟨i, hi⟩ => ((h.inst i j).1 hi).1, .inl⟩

/-- An accepted job is in one place, and in no other is there a trace of it. -/
lemma Sound.one_place (h : t.Sound) (hj : j < t.accepted.length) :
    ∃ p, t.At j p ∧ ∀ p', p' ≠ p → ¬ t.Shows j p' := by
  rcases h.placed j hj with ⟨k, hk⟩ | hflight | hgone
  · obtain ⟨hidle, hlive⟩ := h.queue_idle k j hk
    have hkey := (h.queue_key k j hk).2
    refine ⟨.queued, ⟨?_, fun k' hk' hj' => hk' (h.queue_key k' j hj').2.symm⟩, fun p' hp' => ?_⟩
    · rw [hkey]
      exact List.count_eq_one_of_mem (h.queue_nodup k) hk
    cases p' with
    | queued => exact absurd rfl hp'
    | inFlight => exact fun hs => hidle (h.shows_inFlight.1 hs)
    | gone => exact hlive
  · refine ⟨.inFlight,
      ⟨hflight, List.count_eq_one_of_mem (h.inst_nodup _) ((h.inst _ _).2 ⟨hflight, rfl⟩),
      fun id hid hj' => hid ((h.inst _ _).1 hj').2.symm⟩, fun p' hp' => ?_⟩
    cases p' with
    | queued => exact fun ⟨k, hk⟩ => (h.queue_idle k j hk).1 hflight
    | inFlight => exact absurd rfl hp'
    | gone => exact (h.flight j hflight).2
  · refine ⟨.gone, hgone, fun p' hp' => ?_⟩
    cases p' with
    | queued => exact fun ⟨k, hk⟩ => (h.queue_idle k j hk).2 hgone
    | inFlight => exact fun hs => (h.flight j (h.shows_inFlight.1 hs)).2 hgone
    | gone => exact absurd rfl hp'

end JobTable

/-- In every run each accepted job is in one slot of the queue of its key, or in flight and
listed once under its instance, or gone, and then gone for good. -/
theorem jobs_in_one_place (cfg : Config D) (as : List (Action D)) (w : World D)
    (h : (machine cfg).exec .new as = some w) :
    (∀ j < w.dispatch.jobs.accepted.length,
      ∃ p, w.dispatch.jobs.At j p ∧ ∀ p', p' ≠ p → ¬ w.dispatch.jobs.Shows j p') ∧
    ∀ bs w', (machine cfg).exec w bs = some w' →
      w.dispatch.jobs.accepted <+: w'.dispatch.jobs.accepted ∧
      ∀ j, w.dispatch.jobs.At j .gone → w'.dispatch.jobs.At j .gone := by
  have hsound := sound_exec h
  refine ⟨fun j hj => hsound.1.one_place hj, fun bs w' hbs => ?_⟩
  have hmoves : ReflTransGen JobTable.Move w.dispatch.jobs w'.dispatch.jobs :=
    Machine.exec_induction
      (I := fun v => ReflTransGen JobTable.Move w.dispatch.jobs v.dispatch.jobs)
      (fun _ _ _ hv hstep => hv.trans (Step.of_step hstep).moves) .refl hbs
  exact ⟨accepted_moves hmoves, fun j => gone_moves hmoves hsound.1⟩

/-- The start job of an instance, taken by a fetch loop. -/
theorem jobs_in_one_place_taken : ∃ w, (machine sampleConfig).exec .new sampleTake = some w ∧
    ∃ p, w.dispatch.jobs.At 0 p ∧ ∀ p', p' ≠ p → ¬ w.dispatch.jobs.Shows 0 p' := by
  refine ⟨_, rfl, (jobs_in_one_place sampleConfig sampleTake _ rfl).1 0 ?_⟩
  decide

end Broker

end Blkit
