import Blkit.Broker.Bookkeeping

/-!
# Losing a job, taking it back, starting too late

Three things can go wrong with a job between the queue and the worker, and each does.  For
each there is a run in which it happens, and a condition on the actions of a run under which
it does not.

* A job is lost when a suspension report settles it while a fetch loop still offers it and
  the loop then gives up.  Nothing else loses a job (`none_lost_iff`).
* A loop, or a timer's callback, that is late requeues a job that by now belongs to a later
  delivery.  It does not when a job is only taken once nothing of its earlier deliveries is
  left (`requeue_own`).
* A start job that has timed out is queued again, and stays queued when its instance
  finishes (`no_late_start`).
-/

namespace Blkit

namespace Broker

open Relation List Function JobTable

variable {D : Type} {cfg : Config D} {w w' : World D} {a : Action D} {j : ℕ}

/-! ## What an action leaves alone -/

variable {now : Int} {id : String}

lemma Topics.ended_finishLocked {t : Topics D} {wire : Wire D} {retention : Int} {pace pace' : Pace}
    {o : Outcome D} :
    t.ended ⊆ (t.finishLocked wire retention now pace pace' id o).ended ∧
      (t.finishLocked wire retention now pace pace' id o).ended ⊆ insert id t.ended := by
  rw [finishLocked]
  split
  · exact ⟨Finset.Subset.refl _, Finset.subset_insert _ _⟩
  · cases o with
    | completed result | failed e | cancelled =>
      exact ⟨Finset.subset_insert _ _, Finset.Subset.refl _⟩

lemma Topics.ended_subscribe {t : Topics D} {cap : ℕ} :
    (t.subscribeToInstance cap now id).ended = t.ended := by
  rw [subscribeToInstance]
  split
  · rfl
  · split <;> rfl

variable {i : ℕ}

lemma Topics.ended_unsubscribe {t : Topics D} : (t.unsubscribe i).ended = t.ended := by
  rw [unsubscribe]
  split
  · rfl
  · split <;> rfl

/-- An instance that has finished has finished for good. -/
lemma Step.ended (h : Step cfg w a w') : w.topics.ended ⊆ w'.topics.ended := by
  cases h with
  | cancelQueued c order req jobs _ _ | finished c id o _ => exact Topics.ended_finishLocked.1
  | subscribe now id _ => exact (Topics.ended_subscribe).symm ▸ Finset.Subset.refl _
  | unsubscribe i => exact (Topics.ended_unsubscribe).symm ▸ Finset.Subset.refl _
  | _ => exact Finset.Subset.refl _

variable {t t' : JobTable D}

/-! ## Lost jobs -/

/-- A loop has taken the job and has neither handed it over nor put it back. -/
def Dispatch.Held (d : Dispatch D) (j : ℕ) : Prop := ∃ i n, d.held i = some (j, n)

/-- Why nobody has to care for a job any more: it was received or removed, its instance has
finished, or the broker is closed. -/
def World.Done (w : World D) (j : ℕ) : Prop :=
  j ∈ w.dispatch.received ∨ j ∈ w.dispatch.jobs.removed ∨ w.dispatch.jobs.instOf j ∈
    w.topics.ended ∨ w.closed = true

/-- The job is queued or held by a loop, if anybody has to care for it. -/
def World.Kept (w : World D) (j : ℕ) : Prop :=
  (∃ k, j ∈ w.dispatch.jobs.queues k) ∨ w.dispatch.Held j ∨ w.Done j

def World.NoneLost (w : World D) : Prop := ∀ j < w.dispatch.jobs.accepted.length, w.Kept j

/-- A loop that gives a job up that was settled meanwhile is not the last one to hold it. -/
def Yields (w : World D) (a : Action D) : Prop :=
  ∀ i j n, a = .fetch (.loop i .requeue) → w.dispatch.Leaves i j n →
    w.dispatch.jobs.settled j = true →
    (∃ i' n', i' ≠ i ∧ w.dispatch.held i' = some (j, n')) ∨ w.Done j

variable {d d' : Dispatch D}

/-- What was held is held, except by the loop that has let its job go. -/
lemma Dispatch.Held.of_update {j₀ n₀ : ℕ} (hi : d.held i = some (j₀, n₀))
    (hheld : d'.held = update d.held i none) (hne : j ≠ j₀) (h : d.Held j) : d'.Held j := by
  obtain ⟨i', n, hi'⟩ := h
  refine ⟨i', n, ?_⟩
  rw [hheld, update_of_ne]
  · exact hi'
  · rintro rfl
    rw [hi] at hi'
    cases hi'
    exact hne rfl

/-- Jobs and receipts are as they were. -/
lemma World.Kept.of_held (hjobs : d.jobs = w.dispatch.jobs)
    (hheld : w.dispatch.Held j → d.Held j) (hreceived : w.dispatch.received ⊆ d.received)
    (h : w.Kept j) :
    ({ w with dispatch := d } : World D).Kept j := by
  rw [World.Kept, World.Done, hjobs]
  exact h.imp_right (Or.imp hheld (Or.imp_left fun hj => hreceived hj))

variable {fa : FetchAction}

/-- A fetch loop or a timer loses no job, unless it is a loop that gives a job up. -/
lemma Kept.fetch (h : Dispatch.Effect w.closed w.dispatch fa d)
    (hs : w.dispatch.jobs.Sound) (hlt : j < w.dispatch.jobs.accepted.length)
    (hY : Yields w (.fetch fa))
    (hj : w.Kept j) : ({ w with dispatch := d } : World D).Kept j := by
  cases h with
  | quiet hjobs hheld hreceived =>
    refine hj.of_held hjobs (fun ⟨i, n, hi⟩ => ⟨i, n, ?_⟩) (hreceived ▸ Finset.Subset.refl _)
    rw [hheld]
    exact hi
  | take i k j₀ q _ hi hq hjobs hheld hreceived =>
    rw [World.Kept, World.Done]
    by_cases hjj : j = j₀
    · refine .inr (.inl ⟨i, w.dispatch.jobs.timers.length, ?_⟩)
      rw [hheld, update_self, hjj]
    · rcases hj with ⟨k', hk'⟩ | ⟨i', n, hi'⟩ | hdone
      · rw [hjobs]
        exact .inl ⟨k', (hs.mem_queues_take hq).2 ⟨hk', hjj⟩⟩
      · refine .inr (.inl ⟨i', n, ?_⟩)
        rw [hheld, update_of_ne]
        · exact hi'
        · rintro rfl
          rw [hi] at hi'
          cases hi'
      · rw [hjobs, hreceived]
        exact .inr (.inr hdone)
  | hand i j₀ n hi hjobs hheld hreceived =>
    by_cases hjj : j = j₀
    · refine .inr (.inr (.inl ?_))
      rw [hreceived, hjj]
      exact Finset.mem_insert_self _ _
    · exact hj.of_held hjobs (.of_update hi hheld hjj) (hreceived ▸ Finset.subset_insert _ _)
  | quit i j₀ n hclosed hi hjobs hheld hreceived => exact .inr (.inr (.inr (.inr (.inr hclosed))))
  | drop i j₀ n hleaves hi hwhy hjobs hheld hreceived =>
    by_cases hjj : j = j₀
    · subst hjj
      by_cases hsettled : w.dispatch.jobs.settled j = true
      · rcases hY i j n rfl hleaves hsettled with ⟨i', n', hne, hi'⟩ | hdone
        · refine .inr (.inl ⟨i', n', ?_⟩)
          rw [hheld, update_of_ne hne]
          exact hi'
        · rw [World.Kept, World.Done, hjobs, hreceived]
          exact .inr (.inr hdone)
      · -- not settled and not in flight: it is queued, or was removed
        rw [World.Kept, World.Done, hjobs]
        rcases hwhy with hclosed | hset | hidle
        · exact .inr (.inr (.inr (.inr (.inr hclosed))))
        · exact absurd hset hsettled
        · rcases hs.placed j hlt with hqueued | hflight | hset | hremoved
          · exact .inl hqueued
          · exact absurd hflight hidle
          · exact absurd hset hsettled
          · exact .inr (.inr (.inr (.inl hremoved)))
    · exact hj.of_held hjobs (.of_update hi hheld hjj) (hreceived ▸ Finset.Subset.refl _)
  | putBack i j₀ n _ hi hopen hj₀ hjobs hheld hreceived =>
    rw [World.Kept, World.Done]
    by_cases hjj : j = j₀
    · rw [hjobs]
      exact .inl ⟨_, mem_queues_putBack.2 (.inl ⟨hjj, rfl⟩)⟩
    · rcases hj with ⟨k', hk'⟩ | hheld' | hdone
      · rw [hjobs]
        exact .inl ⟨k', mem_queues_putBack.2 (.inr hk')⟩
      · exact .inr (.inl (hheld'.of_update hi hheld hjj))
      · rw [hjobs, hreceived]
        exact .inr (.inr hdone)
  | timeOut n ts hts hjobs hheld hreceived | expire n j₀ ts hts hjobs hheld hreceived =>
    rw [World.Kept, World.Done, Dispatch.Held, hheld, hjobs, hreceived]
    exact hj
  | redeliver n j₀ ts hts hopen hj₀ hjobs hheld hreceived =>
    rw [World.Kept, World.Done, Dispatch.Held, hheld, hjobs, hreceived]
    exact hj.imp_left fun ⟨k, hk⟩ => ⟨k, mem_queues_putBack.2 (.inr hk)⟩

/-- A call leaves the loops and what was received alone. -/
lemma Step.loops (h : Step cfg w a w') (ha : ∀ fa, a ≠ .fetch fa) :
    w'.dispatch.loops = w.dispatch.loops ∧ w'.dispatch.received = w.dispatch.received := by
  cases h with
  | fetch fa d hd => exact absurd rfl (ha fa)
  | _ => exact ⟨rfl, rfl⟩

lemma Step.closed (h : Step cfg w a w') (hw : w.closed) : w'.closed := by
  cases h with
  | close _ => rfl
  | _ => exact hw

lemma JobTable.removed_settle : (t.settleInstanceLocked id).removed = t.removed :=
  settle_fields.2.2.2

lemma JobTable.queues_settle : (t.settleInstanceLocked id).queues = t.queues := settle_fields.2.1

open JobTable (queues_settle)

variable {k : ProcessKey}

/-- A call takes a job out of its queue only to remove it. -/
lemma Step.queued (h : Step cfg w a w') (ha : ∀ fa, a ≠ .fetch fa) (hs : w.dispatch.jobs.Sound)
    (hj : j ∈ w.dispatch.jobs.queues k) : j ∈ w'.dispatch.jobs.queues k ∨
    j ∈ w'.dispatch.jobs.removed := by
  cases h with
  | fetch fa d hd => exact absurd rfl (ha fa)
  | submit c order id req job _ _ _
  | send a job job' _ _ _
  | resume n id resumes rec job _ _ _ _ _ => exact .inl (mem_queues_enqueue.2 (.inl hj))
  | cancelQueued c order req jobs _ hjobs =>
    obtain ⟨j₀, -, as, bs, hq, rfl⟩ := removeQueuedStartLocked_eq_some hjobs
    show j ∈ (settleInstanceLocked _ _).queues k ∨ j ∈ (settleInstanceLocked _ _).removed
    rw [queues_settle, removed_settle]
    by_cases hjj : j = j₀
    · exact .inr (hjj ▸ Finset.mem_insert_self _ _)
    · exact .inl ((hs.mem_queues_remove hq).2 ⟨hj, hjj⟩)
  | suspended c id resumeAt _ | finished c id o _ => exact .inl (queues_settle.symm ▸ hj)
  | _ => exact .inl hj

lemma JobTable.Move.removed (m : t.Move t') : t.removed ⊆ t'.removed := by
  cases m with
  | settle id => exact removed_settle ▸ Finset.Subset.refl _
  | remove key as j bs hq => exact Finset.subset_insert _ _
  | _ => exact Finset.Subset.refl _

lemma Step.removed (h : Step cfg w a w') : w.dispatch.jobs.removed ⊆ w'.dispatch.jobs.removed :=
  moves_induction (I := fun t => w.dispatch.jobs.removed ⊆ t.removed)
    (fun _ _ m ht => ht.trans m.removed)
    h.moves (Finset.Subset.refl _)

lemma Dispatch.held_congr (h : d'.loops = d.loops) : d'.held = d.held := by
  funext i
  rw [held, held, h]

/-- A call loses no job. -/
lemma Kept.call (h : Step cfg w a w') (ha : ∀ fa, a ≠ .fetch fa) (hs : w.dispatch.jobs.Sound)
    (hlt : j < w.dispatch.jobs.accepted.length) (hj : w.Kept j) : w'.Kept j := by
  obtain ⟨hloops, hreceived⟩ := h.loops ha
  rcases hj with ⟨k, hk⟩ | hheld | hdone
  · rcases h.queued ha hs hk with hk | hremoved
    · exact .inl ⟨k, hk⟩
    · exact .inr (.inr (.inr (.inl hremoved)))
  · refine .inr (.inl ?_)
    rw [Dispatch.Held, Dispatch.held_congr hloops]
    exact hheld
  · refine .inr (.inr ?_)
    rcases hdone with hj | hj | hj | hj
    · exact .inl (hreceived ▸ hj)
    · exact .inr (.inl (h.removed hj))
    · refine .inr (.inr (.inl ?_))
      obtain ⟨l, hl⟩ := accepted_moves h.moves
      rw [instOf, ← hl, getElem?_append_left hlt]
      exact h.ended hj
    · exact .inr (.inr (.inr (h.closed hj)))

/-- Every action keeps all jobs, if it yields none that it alone holds. -/
lemma NoneLost.step (h : Step cfg w a w') (hs : w.dispatch.jobs.Sound) (hY : Yields w a)
    (hw : w.NoneLost) :
    w'.NoneLost := by
  intro j hj'
  by_cases hj : j < w.dispatch.jobs.accepted.length
  · by_cases ha : ∃ fa, a = .fetch fa
    · obtain ⟨fa, rfl⟩ := ha
      cases h with
      | refused => exact hw j hj
      | fetch _ d hd => exact Kept.fetch (.of_step hd) hs hj hY (hw j hj)
      | send _ _ _ _ ha _ | say _ _ _ _ _ ha => cases ha
    · exact Kept.call h (fun fa hfa => ha ⟨fa, hfa⟩) hs hj (hw j hj)
  · exact .inl (h.queued_new (not_lt.1 hj) hj')

variable {n : ℕ}

/-- What a loop holds it held before, or has just taken. -/
lemma Dispatch.Effect.held_new {closed : Bool}
    (h : Dispatch.Effect closed d fa d') (hi : d'.held i = some (j, n)) :
    d.held i = some (j, n) ∨
      fa = .loop i .look ∧ d.Takes closed i j ∧ n = d.jobs.timers.length ∧ ∃ k q,
      d.jobs.queues k = j :: q := by
  have hless {i₀ : ℕ} (hheld : d'.held = update d.held i₀ none) : d.held i = some (j, n) := by
    rw [hheld, update_apply] at hi
    split at hi
    · cases hi
    · exact hi
  cases h with
  | quiet _ hheld _ | timeOut _ _ _ _ hheld _ | expire _ _ _ _ _ hheld _
  | redeliver _ _ _ _ _ _ _ hheld _ => exact .inl (hheld ▸ hi)
  | take i₀ k j₀ q htakes _ hq _ hheld _ =>
    rw [hheld, update_apply] at hi
    split at hi
    · rename_i hii
      cases hi
      exact .inr ⟨hii ▸ rfl, hii ▸ htakes, rfl, k, q, hq⟩
    · exact .inl hi
  | hand _ _ _ _ _ hheld _ | quit _ _ _ _ _ _ hheld _ | drop _ _ _ _ _ _ _ hheld _
  | putBack _ _ _ _ _ _ _ _ hheld _ => exact .inl (hless hheld)

/-- The same for an action. -/
lemma Step.held_new (h : Step cfg w a w') (hi : w'.dispatch.held i = some (j, n)) :
    w.dispatch.held i = some (j, n) ∨
      a = .fetch (.loop i .look) ∧ w.dispatch.Takes w.closed i j ∧
      n = w.dispatch.jobs.timers.length ∧
        ∃ k q, w.dispatch.jobs.queues k = j :: q := by
  by_cases ha : ∃ fa, a = .fetch fa
  · obtain ⟨fa, rfl⟩ := ha
    cases h with
    | refused => exact .inl hi
    | fetch _ d hd =>
      refine ((Dispatch.Effect.of_step hd).held_new hi).imp_right ?_
      rintro ⟨rfl, htakes⟩
      exact ⟨rfl, htakes⟩
    | send _ _ _ _ ha _ | say _ _ _ _ _ ha => cases ha
  · rw [Dispatch.held_congr (h.loops fun fa hfa => ha ⟨fa, hfa⟩).1] at hi
    exact .inl hi

/-- Loops hold accepted jobs. -/
def World.Steady (w : World D) : Prop :=
  w.Sound ∧ ∀ i j n, w.dispatch.held i = some (j, n) → j < w.dispatch.jobs.accepted.length

lemma steady_new : (World.new : World D).Steady := ⟨sound_new, nofun⟩

lemma Step.steady (h : Step cfg w a w') (hw : w.Steady) : w'.Steady := by
  refine ⟨h.sound hw.1, fun i j n hi => ?_⟩
  have hlen := (accepted_moves h.moves).length_le
  rcases h.held_new hi with hi | ⟨-, -, -, k, q, hq⟩
  · exact Nat.lt_of_lt_of_le (hw.2 i j n hi) hlen
  · exact Nat.lt_of_lt_of_le (hw.1.1.queue_key k j (hq ▸ mem_cons_self)).1 hlen

/-- A loop that gives up the last hold on a settled job loses it. -/
lemma NoneLost.yields (hw : w.Steady) (h : ∀ w', (machine cfg).step w a = some w' → w'.NoneLost) :
    Yields w a := by
  rintro i j n rfl ⟨l, hl, hphase⟩ hsettled
  have hheld : w.dispatch.held i = some (j, n) := by rw [Dispatch.held_eq hl, hphase]; rfl
  have hstep : (machine cfg).step w (.fetch (.loop i .requeue)) =
      some { w with dispatch := w.dispatch.setPhase i .returned } := by
    have hrequeue : (w.dispatch.setPhase i .returned).requeue w.closed j =
        w.dispatch.setPhase i .returned :=
      Dispatch.requeue_eq_self (.inr (.inl hsettled))
    simp only [machine, World.step, Dispatch.step, hl, Option.bind_some, Dispatch.loopStep,
      hphase, hrequeue]
    rfl
  rcases h _ hstep j (hw.2 i j n hheld) with ⟨k, hk⟩ | ⟨i', n', hi'⟩ | hdone
  · exact absurd (.inl hsettled) (hw.1.1.queue_idle k j hk).2
  · rw [Dispatch.held_setPhase hl] at hi'
    by_cases hii : i' = i
    · rw [hii, update_self] at hi'
      cases hi'
    · rw [update_of_ne hii] at hi'
      exact .inl ⟨i', n', hii, hi'⟩
  · exact .inr hdone

/-- In a run no job is lost exactly if no loop gives up the last hold on a job that a report
has settled under its hands. -/
theorem none_lost_iff (cfg : Config D) (as : List (Action D)) :
    (machine cfg).Always World.NoneLost .new as ↔ (machine cfg).Along Yields .new as := by
  constructor
  · intro h
    refine h.along (J := World.Steady) (fun _ _ _ hw hstep => (Step.of_step hstep).steady hw) ?_
      steady_new
    exact fun _ _ hw _ hstep => NoneLost.yields hw hstep
  · intro h
    refine (h.always (I := fun w => w.Steady ∧ w.NoneLost) ?_ ⟨steady_new, nofun⟩).imp
      fun _ hw => hw.2
    intro w a w' hY ⟨hw, hkept⟩ hstep
    have hstep := Step.of_step hstep
    exact ⟨hstep.steady hw, NoneLost.step hstep hw.1.1 hY hkept⟩

/-- The response to an input request is taken by a loop; before the worker gets it, the worker
reports the instance suspended and closes the loop. -/
def sampleLost : List (Action Unit) :=
  sampleTake ++ [.fetch (.loop 0 .hand), .respondToInputRequest (sampleCall 2) "i" "r" (),
    .fetch (.loop 0 .look), .report (sampleCall 3) "i" (.suspended none), .fetch (.loop 0 .cancel),
    .fetch (.loop 0 .giveUp), .fetch (.loop 0 .requeue)]

/-- The response of that run is lost. -/
theorem response_lost : ∃ w, (machine sampleConfig).exec .new sampleLost = some w ∧
    ¬ w.NoneLost := by
  obtain ⟨w, h⟩ : ∃ w, (machine sampleConfig).exec .new sampleLost = some w := ⟨_, rfl⟩
  have hsound := (sound_exec h).1
  refine ⟨w, h, fun hkept => ?_⟩
  cases h
  rcases hkept 1 (by decide) with ⟨k, hk⟩ | ⟨i, n, hi⟩ | hdone
  · exact (hsound.queue_idle k 1 hk).2 (.inl rfl)
  · cases i with
    | zero | succ _ => cases hi
  · revert hdone
    unfold World.Done
    decide

/-! ## Late requeues -/

/-- An action that calls `requeue` for job `j` on behalf of its delivery `n`. -/
inductive Requeues (w : World D) : Action D → ℕ → ℕ → Prop
  | giveUp (i j n : ℕ) (h : w.dispatch.Leaves i j n) : Requeues w (.fetch (.loop i .requeue)) j n
  | timeOut (j n : ℕ) (h : w.dispatch.jobs.timers[n]? = some ⟨j, .due⟩) : Requeues w
      (.fetch (.redeliver n)) j n

/-- The timer of delivery `n` of a job has fired. -/
def Dispatch.TimedOut (d : Dispatch D) (j n : ℕ) : Prop := d.jobs.timers[n]? ≠ some ⟨j, .armed⟩

/-- Delivery `n` of a job is with a loop whose context has ended. -/
def Dispatch.Cancelled (d : Dispatch D) (j n : ℕ) : Prop :=
  ∃ (i : ℕ) (l : FetchLoop), d.loops[i]? = some l ∧ l.phase.held = some (j, n) ∧ l.cancelled = true

/-- A job is requeued on behalf of the delivery it is with, or it is with one that has itself
timed out or been cancelled. -/
def RequeuesOwn (w : World D) (a : Action D) : Prop :=
  ∀ j n, Requeues w a j n → w.closed = false → ∀ m, w.dispatch.jobs.timer j = some m →
    m = n ∨ w.dispatch.TimedOut j m ∨ w.dispatch.Cancelled j m

/-- A job is taken only when nothing is left of its earlier deliveries: no loop holds it, and
no callback of a timer waits to requeue it. -/
def TakesClean (w : World D) (a : Action D) : Prop :=
  ∀ i j, a = .fetch (.loop i .look) → w.dispatch.Takes w.closed i j →
    ¬ w.dispatch.Held j ∧ ∀ n : ℕ, w.dispatch.jobs.timers[n]? ≠ some ⟨j, .due⟩

/-- Loops and waiting callbacks are about the latest delivery of their job. -/
structure Dispatch.Latest (d : Dispatch D) : Prop where
  held : ∀ i j n m, d.held i = some (j, n) → d.jobs.timer j = some m → m = n
  due : ∀ j n m : ℕ, d.jobs.timers[n]? = some ⟨j, .due⟩ → d.jobs.timer j = some m → m = n

namespace JobTable

variable {t t' t'' : JobTable D}

/-- Timers were stopped and no delivery was begun. -/
structure Fades (t t' : JobTable D) : Prop where
  timer : ∀ j m : ℕ, t'.timer j = some m → t.timer j = some m
  due : ∀ j n : ℕ, t'.timers[n]? = some ⟨j, .due⟩ → t.timers[n]? = some ⟨j, .due⟩

lemma Fades.of_eq (htimer : t'.timer = t.timer) (htimers : t'.timers = t.timers) : t.Fades t' :=
  ⟨fun _ _ hm => htimer ▸ hm, fun _ _ hn => htimers ▸ hn⟩

lemma Fades.refl : t.Fades t := .of_eq rfl rfl

lemma Fades.trans (h : t.Fades t') (h' : t'.Fades t'') : t.Fades t'' :=
  ⟨fun j m hm => h.timer j m (h'.timer j m hm), fun j n hn => h.due j n (h'.due j n hn)⟩

/-- The timer of a job is stopped and forgotten. -/
lemma Fades.of_stop (htimer : t'.timer = update t.timer j none)
    (htimers : t'.timers = t.stopTimer j) :
    t.Fades t' := by
  refine ⟨fun j' m hm => ?_, fun j' n hn => ?_⟩
  swap
  · rw [htimers, stopTimer] at hn
    cases hj : t.timer j with
    | none =>
      rw [hj] at hn
      exact hn
    | some m =>
      rw [hj] at hn
      exact Timers.due_stop hn
  rw [htimer, update_apply] at hm
  split at hm
  · cases hm
  · exact hm

lemma fades_settle (l : List ℕ) : t.Fades (l.foldl settle t) := by
  induction l generalizing t with
  | nil => exact .refl
  | cons j l ih => exact (Fades.of_stop rfl rfl).trans (ih (t := t.settle j))

lemma fades_settleInstanceLocked (id : String) : t.Fades (t.settleInstanceLocked id) :=
  ⟨(fades_settle _).timer, (fades_settle _).due⟩

lemma fades_stopTimers : t.Fades t.stopTimers := by
  refine ⟨fun _ _ => id, fun j n hn => ?_⟩
  rw [stopTimers, getElem?_mapIdx] at hn
  obtain ⟨tm, htm, hn⟩ := Option.map_eq_some_iff.1 hn
  split at hn
  · cases hn
  · rw [htm, hn]

end JobTable

/-- A call begins no delivery. -/
lemma Step.fades (h : Step cfg w a w') (ha : ∀ fa, a ≠ .fetch fa) :
    w.dispatch.jobs.Fades w'.dispatch.jobs := by
  cases h with
  | fetch fa d hd => exact absurd rfl (ha fa)
  | submit _ _ _ _ _ _ _ _ | send _ _ _ _ _ _ | resume _ _ _ _ _ _ _ _ _ _ => exact .of_eq rfl rfl
  | cancelQueued c order req jobs _ hjobs =>
    obtain ⟨j, -, as, bs, hq, hremoved⟩ := removeQueuedStartLocked_eq_some hjobs
    have hfades : w.dispatch.jobs.Fades jobs := by
      rw [hremoved]
      exact .of_eq rfl rfl
    exact hfades.trans (fades_settleInstanceLocked _)
  | suspended c id resumeAt _ | finished c id o _ => exact fades_settleInstanceLocked id
  | close _ => exact fades_stopTimers
  | _ => exact .refl

lemma Dispatch.Latest.fades (h : d.Latest)
    (hheld : ∀ i j n, d'.held i = some (j, n) → d.held i = some (j, n))
    (hjobs : d.jobs.Fades d'.jobs) : d'.Latest :=
  ⟨fun i j n m hi hm => h.held i j n m (hheld i j n hi) (hjobs.timer j m hm),
    fun j n m hn hm => h.due j n m (hjobs.due j n hn) (hjobs.timer j m hm)⟩

/-- Loops and timers stay with the latest delivery if jobs are taken clean. -/
lemma Latest.fetch (h : Dispatch.Effect w.closed w.dispatch fa d)
    (hw : w.Sound) (hT : TakesClean w (.fetch fa)) (hl : w.dispatch.Latest) : d.Latest := by
  have hnew (i j n : ℕ) (hi : d.held i = some (j, n)) := h.held_new hi
  have hold (hfa : ∀ i, fa ≠ .loop i .look) (i j n : ℕ) (hi : d.held i = some (j, n)) :
      w.dispatch.held i = some (j, n) := (hnew i j n hi).resolve_right fun hlook => hfa i hlook.1
  cases h with
  | quiet hjobs hheld _ => exact hl.fades (fun i j n hi => hheld ▸ hi) (hjobs ▸ .refl)
  | take i k j q htakes hfree hq hjobs hheld _ =>
    obtain ⟨hunheld, hundue⟩ := hT i j rfl htakes
    have htimer (j' m : ℕ) (hne : j' ≠ j) (hm : d.jobs.timer j' = some m) :
        w.dispatch.jobs.timer j' = some m := by
      rw [hjobs] at hm
      exact (update_of_ne hne _ _).symm.trans hm
    constructor
    · intro i' j' n m hi' hm
      rw [hheld, update_apply] at hi'
      split at hi'
      · cases hi'
        rw [hjobs] at hm
        exact Option.some.inj (hm.symm.trans (update_self _ _ _))
      · refine hl.held i' j' n m hi' (htimer j' m ?_ hm)
        rintro rfl
        exact hunheld ⟨i', n, hi'⟩
    · intro j' n m hn hm
      rw [hjobs] at hn
      have hbefore : w.dispatch.jobs.timers[n]? = some ⟨j', .due⟩ := Timers.due_start hn
      refine hl.due j' n m hbefore (htimer j' m ?_ hm)
      rintro rfl
      exact hundue n hbefore
  | hand i j n _ hjobs _ _
  | quit i j n _ _ hjobs _ _
  | drop i j n _ _ _ hjobs _ _ => exact hl.fades (hold nofun) (hjobs ▸ .refl)
  | putBack i j n _ _ _ _ hjobs _ _ => exact hl.fades (hold nofun) (hjobs ▸ .of_stop rfl rfl)
  | timeOut n ts hts hjobs hheld _ =>
    have htimer : d.jobs.timer = w.dispatch.jobs.timer := by rw [hjobs]; rfl
    refine ⟨fun i j n m hi hm => hl.held i j n m (hheld ▸ hi) (htimer ▸ hm),
      fun j n' m hn' hm => ?_⟩
    rw [htimer] at hm
    rw [hjobs] at hn'
    rcases Timers.due_fire hts hn' with hdue | harmed
    · exact hl.due j n' m hdue hm
    · -- an armed timer is the one its job has
      exact Option.some.inj (hm.symm.trans (hw.2.armed n' j harmed))
  | expire n j ts hts hjobs _ _ =>
    exact hl.fades (hold nofun) (hjobs ▸ ⟨fun _ _ => id, fun _ _ => Timers.due_call hts⟩)
  | redeliver n j ts hts _ _ hjobs _ _ =>
    have hcall : w.dispatch.jobs.Fades (w.dispatch.jobs.setTimers ts) :=
      ⟨fun _ _ => id, fun _ _ => Timers.due_call hts⟩
    exact hl.fades (hold nofun) (hjobs ▸ hcall.trans (.of_stop rfl rfl))

lemma Latest.step (h : Step cfg w a w') (hw : w.Sound) (hT : TakesClean w a)
    (hl : w.dispatch.Latest) :
    w'.dispatch.Latest := by
  by_cases ha : ∃ fa, a = .fetch fa
  · obtain ⟨fa, rfl⟩ := ha
    cases h with
    | refused => exact hl
    | fetch _ d hd => exact Latest.fetch (.of_step hd) hw hT hl
    | send _ _ _ _ ha _ | say _ _ _ _ _ ha => cases ha
  · have ha (fa : FetchAction) (hfa : a = .fetch fa) : False := ha ⟨fa, hfa⟩
    refine hl.fades (fun i j n hi => ?_) (h.fades ha)
    rw [Dispatch.held_congr (h.loops ha).1] at hi
    exact hi

/-- If jobs are taken clean, no requeue takes a job back from a delivery it does not belong
to. -/
theorem requeue_own (cfg : Config D) (as : List (Action D))
    (h : (machine cfg).Along TakesClean .new as) :
    (machine cfg).Along RequeuesOwn .new as := by
  refine h.along (I := fun w => w.Sound ∧ w.dispatch.Latest) ?_ ?_ ⟨sound_new, nofun, nofun⟩
  · intro w a w' hT ⟨hw, hl⟩ hstep
    exact ⟨(Step.of_step hstep).sound hw, Latest.step (.of_step hstep) hw hT hl⟩
  · rintro w a - ⟨-, hl⟩ j n hr - m hm
    cases hr with
    | giveUp i _ _ hleaves =>
      obtain ⟨l, hli, hphase⟩ := hleaves
      refine .inl (hl.held i j n m ?_ hm)
      rw [Dispatch.held_eq hli, hphase]
      rfl
    | timeOut _ _ hdue => exact .inl (hl.due j n m hdue hm)

/-- A delivery times out and the job goes to a second loop, whose worker gets it; then the first
loop's context ends. -/
def sampleStale : List (Action Unit) :=
  sampleTake ++ [.fetch (.timeOut 0), .fetch (.redeliver 0), .fetch (.fetchJobs [sampleKey]),
    .fetch (.loop 1 .look), .fetch (.loop 1 .hand), .fetch (.loop 0 .cancel),
    .fetch (.loop 0 .giveUp)]

/-- The loop that gives up would put back a job which another loop has taken. -/
theorem requeue_stale : ∃ w, (machine sampleConfig).exec .new sampleStale = some w ∧
    ¬ RequeuesOwn w (.fetch (.loop 0 .requeue)) := by
  obtain ⟨w, hw, hloops, hleaves, hopen, htimer, harmed⟩ : ∃ w,
      (machine sampleConfig).exec .new sampleStale = some w ∧
      (∀ l ∈ w.dispatch.loops, l.phase.held ≠ some (0, 1)) ∧ w.dispatch.Leaves 0 0 0 ∧
      w.closed = false ∧
      w.dispatch.jobs.timer 0 = some 1 ∧ w.dispatch.jobs.timers[1]? = some ⟨0, .armed⟩ :=
    ⟨_, rfl, by decide, ⟨_, rfl, rfl⟩, rfl, rfl, rfl⟩
  refine ⟨w, hw, fun h => ?_⟩
  rcases h 0 0 (.giveUp 0 0 0 hleaves) hopen 1 htimer with h | h | ⟨i, l, hi, hheld, -⟩
  · cases h
  · exact h harmed
  · exact hloops l (mem_of_getElem? hi) hheld

/-- A delivery times out after the worker got the job; the job is taken again, and given up. -/
def sampleAgain : List (Action Unit) :=
  sampleTake ++ [.fetch (.loop 0 .hand), .fetch (.timeOut 0), .fetch (.redeliver 0),
    .fetch (.loop 0 .look),
    .fetch (.loop 0 .cancel), .fetch (.loop 0 .giveUp), .fetch (.loop 0 .requeue)]

/-- No loop holds a job and no callback waits. -/
def idle (w : World D) : Bool :=
  (w.dispatch.loops.all fun l => l.phase.held = none) && w.dispatch.jobs.timers.all fun t =>
    t.state ≠ .due

lemma takesClean_of_idle (h : idle w) : TakesClean w a := by
  rw [idle, Bool.and_eq_true, all_eq_true, all_eq_true] at h
  rintro i j rfl -
  refine ⟨fun ⟨i', n, hi'⟩ => ?_, fun n hn => ?_⟩
  · obtain ⟨l, hl, hheld⟩ := Option.bind_eq_some_iff.1 hi'
    have hfree := h.1 l (mem_of_getElem? hl)
    rw [hheld] at hfree
    exact absurd hfree (by simp)
  · exact absurd (h.2 _ (mem_of_getElem? hn)) (by simp)

/-- A loop that gives up puts back its own job. -/
theorem requeue_own_again : (machine sampleConfig).Along TakesClean .new sampleAgain ∧
    (machine sampleConfig).Along RequeuesOwn .new sampleAgain := by
  have hclean : (machine sampleConfig).Along TakesClean .new sampleAgain := by
    refine Machine.along_of_checks
      (p := fun w a => match a with | .fetch (.loop _ .look) => idle w | _ => true)
        (fun w a h => ?_) rfl
    split at h
    · exact takesClean_of_idle h
    · rename_i hne
      rintro i j rfl
      exact absurd rfl (hne i)
  exact ⟨hclean, requeue_own sampleConfig sampleAgain hclean⟩

/-! ## Late starts -/

/-- No loop takes a start job of an instance that has finished. -/
def TakesLive (w : World D) (a : Action D) : Prop :=
  ∀ i j id, a = .fetch (.loop i .look) → w.dispatch.Takes w.closed i j →
    w.dispatch.jobs.starts id j = true →
    id ∉ w.topics.ended

/-- An instance is reported finished when no start job of it is queued. -/
def FinishesClean (w : World D) (a : Action D) : Prop :=
  ∀ c id o, a = .report c id (.finished o) → w.closed = false →
    ∀ k, ∀ j ∈ w.dispatch.jobs.queues k, w.dispatch.jobs.starts id j = false

/-- Instances have one start job each. -/
def World.StartsOnce (w : World D) : Prop :=
  ∀ id j j', w.dispatch.jobs.starts id j = true → w.dispatch.jobs.starts id j' = true → j = j'

/-- Instances have one start job each, and those of finished instances are gone. -/
structure World.StartsOver (w : World D) : Prop where
  gone : ∀ id ∈ w.topics.ended, ∀ j, w.dispatch.jobs.starts id j = true → w.dispatch.jobs.Gone j
  once : w.StartsOnce

lemma JobTable.lt_of_starts (h : t.starts id j) : j < t.accepted.length := by
  by_contra hj
  rw [starts, getElem?_eq_none (not_lt.1 hj)] at h
  cases h

lemma JobTable.mem_of_starts (h : t.starts id j) :
    ∃ job ∈ t.accepted, t.accepted[j]? = some job ∧ job.starts id := by
  obtain ⟨job, hjob⟩ : ∃ job, t.accepted[j]? = some job := ⟨_, getElem?_eq_getElem (lt_of_starts h)⟩
  rw [starts, hjob] at h
  exact ⟨job, mem_of_getElem? hjob, hjob, h⟩

lemma JobTable.instOf_of_starts (h : t.starts id j) : t.instOf j = id := by
  obtain ⟨job, -, hjob, hstarts⟩ := mem_of_starts h
  rw [instOf, hjob]
  exact Job.instanceID_of_starts hstarts

variable {job : Job D}

lemma JobTable.starts_enqueue_new (h : (t.enqueue job).starts id j) :
    t.starts id j ∨ j = t.accepted.length ∧ job.starts id := by
  by_cases hj : j < t.accepted.length
  · exact .inl (starts_enqueue hj ▸ h)
  · have hlen : (t.enqueue job).accepted.length = t.accepted.length + 1 := by simp [enqueue]
    have hle : j ≤ t.accepted.length := Nat.le_of_lt_succ (Nat.lt_of_lt_of_eq (lt_of_starts h) hlen)
    have hj : j = t.accepted.length := Nat.le_antisymm hle (not_lt.1 hj)
    refine .inr ⟨hj, ?_⟩
    rw [starts, hj, enqueue, getElem?_concat_length] at h
    exact h

/-- Only `Submit` accepts a start job, and for a fresh id. -/
lemma Accepts.fresh (h : Accepts cfg w a job) (hjob : job.starts id) : w.Fresh id := by
  cases h with
  | submit c order id' req _ hfresh hwire =>
    obtain ⟨f, rfl⟩ := cfg.wire.job_map _ _ hwire
    rw [Job.starts_map] at hjob
    exact (of_decide_eq_true hjob : id' = id) ▸ hfresh
  | send _ job₀ _ ha hwire =>
    obtain ⟨f, rfl⟩ := cfg.wire.job_map _ _ hwire
    rw [Job.starts_map] at hjob
    cases ha <;> cases hjob
  | resume n id' rec _ _ _ _ hwire =>
    obtain ⟨f, rfl⟩ := cfg.wire.job_map _ _ hwire
    rw [Job.starts_map] at hjob
    cases hjob

/-- How an instance comes to have finished. -/
lemma Step.ended_new (h : Step cfg w a w') (hid : id ∈ w'.topics.ended) : id ∈ w.topics.ended ∨
      ∃ t : JobTable D, w'.dispatch.jobs = t.settleInstanceLocked id ∧
        ((∃ c o, a = .report c id (.finished o) ∧ w.closed = false ∧ t = w.dispatch.jobs) ∨
          ∃ key, w.dispatch.jobs.removeQueuedStartLocked key id = some t) := by
  cases h with
  | cancelQueued c order req jobs _ hjobs =>
    rcases Finset.mem_insert.1 (Topics.ended_finishLocked.2 hid) with rfl | hid
    · exact .inr ⟨jobs, rfl, .inr ⟨req.key, hjobs⟩⟩
    · exact .inl hid
  | finished c id' o hopen =>
    rcases Finset.mem_insert.1 (Topics.ended_finishLocked.2 hid) with rfl | hid
    · exact .inr ⟨w.dispatch.jobs, rfl, .inl ⟨c, o, rfl, hopen, rfl⟩⟩
    · exact .inl hid
  | subscribe now id' _ => exact .inl (Topics.ended_subscribe ▸ hid)
  | unsubscribe i => exact .inl (Topics.ended_unsubscribe ▸ hid)
  | _ => exact .inl hid

/-- A start job of an instance that is not queued is gone once the jobs in flight of the
instance are settled. -/
lemma JobTable.Sound.gone_settle (ht : t.Sound) (hstarts : t.starts id j)
    (hqueue : ∀ k, j ∉ t.queues k) : (t.settleInstanceLocked id).Gone j := by
  rw [gone_settleInstanceLocked]
  rcases ht.placed j (lt_of_starts hstarts) with ⟨k, hk⟩ | hflight | hgone
  · exact absurd hk (hqueue k)
  · exact .inl ((ht.inst id j).2 ⟨hflight, instOf_of_starts hstarts⟩)
  · exact .inr hgone

/-- The id of a new start job is fresh: no job has it. -/
lemma Accepts.not_starts (h : Accepts cfg w a job) (hjob : job.starts id) :
    w.dispatch.jobs.starts id j = false := by
  by_contra hj
  obtain ⟨job', hmem, -, hstarts⟩ := mem_of_starts (eq_true_of_ne_false hj)
  exact (h.fresh hjob).2.2 job' hmem (Job.instanceID_of_starts hstarts)

lemma StartsOnce.step (h : Step cfg w a w') (hw : w.StartsOnce) : w'.StartsOnce := by
  intro id j j' hj hj'
  rcases h.accepts with hsame | ⟨job, haccepts, hjobs, -⟩
  · rw [starts, hsame] at hj hj'
    exact hw id j j' hj hj'
  · rw [hjobs] at hj hj'
    rcases starts_enqueue_new hj with hj | ⟨hlast, hj⟩
    · rcases starts_enqueue_new hj' with hj' | ⟨-, hj'⟩
      · exact hw id j j' hj hj'
      · exact absurd hj (by simp [haccepts.not_starts hj'])
    · rcases starts_enqueue_new hj' with hj' | ⟨hlast', -⟩
      · exact absurd hj' (by simp [haccepts.not_starts hj])
      · rw [hlast, hlast']

lemma StartsOver.step (h : Step cfg w a w') (hs : w.dispatch.jobs.Sound) (hF : FinishesClean w a)
    (hw : w.StartsOver) : w'.StartsOver := by
  refine ⟨fun id hid j hstarts => ?_, StartsOnce.step h hw.once⟩
  have hgone (hstarts : w.dispatch.jobs.starts id j = true) : w'.dispatch.jobs.Gone j := by
    rcases h.ended_new hid with hid | ⟨t, hjobs, ⟨c, o, rfl, hopen, rfl⟩ | ⟨key, hremove⟩⟩
    · exact gone_moves h.moves hs (hw.gone id hid j hstarts)
    · rw [hjobs]
      refine hs.gone_settle hstarts fun k hk => ?_
      rw [hF c id o rfl hopen k j hk] at hstarts
      cases hstarts
    · -- the start job that was removed is the only one
      obtain ⟨j₀, hj₀, as, bs, hq, rfl⟩ := removeQueuedStartLocked_eq_some hremove
      rw [hjobs, gone_settleInstanceLocked, hw.once id j j₀ hstarts hj₀]
      exact .inr (.inr (Finset.mem_insert_self _ _))
  rcases h.accepts with hsame | ⟨job, haccepts, hjobs, hended⟩
  · rw [starts, hsame] at hstarts
    exact hgone hstarts
  · rw [hjobs] at hstarts
    rcases starts_enqueue_new hstarts with hstarts | ⟨-, hstarts⟩
    · exact hgone hstarts
    · exact absurd (hended ▸ hid) (haccepts.fresh hstarts).2.1

/-- If instances are reported finished only when their start job is not queued, no loop takes
a start job of a finished instance. -/
theorem no_late_start (cfg : Config D) (as : List (Action D))
    (h : (machine cfg).Along FinishesClean .new as) :
    (machine cfg).Along TakesLive .new as := by
  refine h.along (I := fun w => w.Sound ∧ w.StartsOver) ?_ ?_ ⟨sound_new, nofun, nofun⟩
  · intro w a w' hF ⟨hw, hstarts⟩ hstep
    exact ⟨(Step.of_step hstep).sound hw, StartsOver.step (.of_step hstep) hw.1 hF hstarts⟩
  · rintro w a - ⟨hw, hstarts⟩ i j id - ⟨-, l, jobs, -, -, htake⟩ hj hended
    obtain ⟨k, -, q, hq, -⟩ := takePendingLocked_eq_some htake
    exact (hw.1.queue_idle k j (hq ▸ mem_cons_self)).2 (hstarts.gone id hended j hj)

/-- The worker gets the start job, its delivery times out, and then the worker reports the
instance completed. -/
def sampleRestart : List (Action Unit) :=
  sampleTake ++ [.fetch (.loop 0 .hand), .fetch (.timeOut 0), .fetch (.redeliver 0),
    .report (sampleCall 2) "i" (.finished (.completed ()))]

/-- The start job of the finished instance is taken once more. -/
theorem late_start : ∃ w, (machine sampleConfig).exec .new sampleRestart = some w ∧
    ¬ TakesLive w (.fetch (.loop 0 .look)) :=
  ⟨_, rfl, fun h => h 0 0 "i" rfl ⟨rfl, _, _, rfl, rfl, rfl⟩ rfl (by decide)⟩

/-- The same without the time-out: the loop looks again and finds nothing. -/
def sampleFinish : List (Action Unit) :=
  sampleTake ++ [.fetch (.loop 0 .hand), .report (sampleCall 2) "i" (.finished (.completed ())),
    .fetch (.loop 0 .look)]

/-- All start jobs of the instance are in flight. -/
def startsInFlight (w : World D) (id : String) : Bool :=
  (List.range w.dispatch.jobs.accepted.length).all fun j =>
    !w.dispatch.jobs.starts id j || decide (j ∈ w.dispatch.jobs.inFlight)

/-- Every start job is in flight when the instance finishes. -/
theorem no_late_start_finish : (machine sampleConfig).Along FinishesClean .new sampleFinish ∧
    (machine sampleConfig).Along TakesLive .new sampleFinish := by
  have hclean : (machine sampleConfig).Along FinishesClean .new sampleFinish := by
    refine (Machine.along_of_checks (p := fun w a => match a with
        | .report _ id (.finished _) => startsInFlight w id
        | _ => true) (fun _ _ h => h) rfl).along (I := World.Sound)
      (fun w a w' _ hw hstep => sound_step w a w' hw hstep) ?_ sound_new
    rintro w _ h hw c id o rfl - k j hj
    have hj' := all_eq_true.1 h j (mem_range.2 (hw.1.queue_key k j hj).1)
    rw [Bool.or_eq_true, decide_eq_true_iff] at hj'
    simpa using hj'.resolve_right (hw.1.queue_idle k j hj).1
  exact ⟨hclean, no_late_start sampleConfig sampleFinish hclean⟩

end Broker

end Blkit
