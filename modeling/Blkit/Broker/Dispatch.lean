import Blkit.Broker.JobTable

/-!
# Fetch loops and redelivery

`FetchJobs` starts a loop that takes jobs and offers them to its worker, one at a time.
The loop holds the lock only while it looks into the queues; what it does between is
spelled out in its phase.  A job that was taken is given back in two ways: by the loop,
when its context ends before the worker took the job, and by the redelivery timer that was
started when it was taken.  Both call `requeue`, and both may come late.

A delivery is known by the number of its timer.  `received` is kept for what is said about
the loops: the code does not have it.

What a step does to the jobs, to what the loops hold and to what was received is said once,
by `Effect`.
-/

namespace Blkit

open Function

namespace Broker

/-- Where a fetch loop is. -/
inductive LoopPhase where
  /-- about to look for a pending job -/
  | looking
  /-- found none; waits for the signal that replaces this one -/
  | waiting (generation : ℕ)
  /-- offers a job, with the number of the delivery -/
  | offering (j n : ℕ)
  /-- its context has ended; about to requeue the job -/
  | leaving (j n : ℕ)
  | returned
deriving DecidableEq, Repr

/-- The goroutine of one call to `FetchJobs`. -/
structure FetchLoop where
  keys : List ProcessKey
  cancelled : Bool
  phase : LoopPhase
deriving DecidableEq, Repr

/-- The job a loop has taken and not handed over, with the number of the delivery. -/
def LoopPhase.held : LoopPhase → Option (ℕ × ℕ)
  | .offering j n | .leaving j n => some (j, n)
  | _ => none

/-- The jobs and the loops that fetch them. -/
structure Dispatch (D : Type) where
  jobs : JobTable D
  loops : List FetchLoop
  generation : ℕ
  received : Finset ℕ

/-- What a loop, its worker and its context do. -/
inductive LoopAction where
  | look | wake | hand | cancel | giveUp | requeue | quit
deriving DecidableEq, Repr

/-- What loops and redelivery timers do. -/
inductive FetchAction where
  | fetchJobs (keys : List ProcessKey)
  | loop (i : ℕ) (a : LoopAction)
  | timeOut (n : ℕ)
  | redeliver (n : ℕ)
deriving DecidableEq, Repr

namespace Dispatch

variable {D : Type}

def empty : Dispatch D := ⟨.empty, [], 0, ∅⟩

variable (d : Dispatch D)

/-- What loop `i` holds. -/
def held (i : ℕ) : Option (ℕ × ℕ) := d.loops[i]?.bind fun l => l.phase.held

/-- The same jobs with other timers. -/
def setTimers (ts : Timers ℕ) : Dispatch D := { d with jobs := d.jobs.setTimers ts }

def setPhase (i : ℕ) (p : LoopPhase) : Dispatch D :=
  { d with loops := d.loops.modify i fun l => { l with phase := p } }

/-- `enqueueLocked`, after the round trip. -/
def enqueue (job : Job D) : Dispatch D :=
  { d with jobs := d.jobs.enqueue job, generation := d.generation + 1 }

def settleInstanceLocked (instanceID : String) : Dispatch D :=
  { d with jobs := d.jobs.settleInstanceLocked instanceID }

/-- What `Close` does here. -/
def close : Dispatch D := { d with jobs := d.jobs.stopTimers, generation := d.generation + 1 }

/-- `requeue`. -/
def requeue (closed : Bool) (j : ℕ) : Dispatch D :=
  if closed = true ∨ d.jobs.settled j = true ∨ j ∉ d.jobs.inFlight then d
  else { d with jobs := d.jobs.putBack j, generation := d.generation + 1 }

/-- The critical section of the loop. -/
def look (closed : Bool) (i : ℕ) (keys : List ProcessKey) : Dispatch D :=
  if closed then d.setPhase i .returned
  else match d.jobs.takePendingLocked keys with
    | none => d.setPhase i (.waiting d.generation)
    | some (j, jobs) => { d.setPhase i (.offering j d.jobs.timers.length) with jobs := jobs }

/-- One step of loop `i`. -/
def loopStep (closed : Bool) (i : ℕ) (l : FetchLoop) : LoopAction → Option (Dispatch D)
  | .look => if l.phase = .looking then some (d.look closed i l.keys) else none
  | .wake =>
    match l.phase with
    | .waiting g => if g = d.generation then none else some (d.setPhase i .looking)
    | _ => none
  | .hand =>
    match l.phase with
    | .offering j _ => some { d.setPhase i .looking with received := insert j d.received }
    | _ => none
  | .cancel => some { d with loops := d.loops.modify i fun l => { l with cancelled := true } }
  | .giveUp =>
    match l.cancelled, l.phase with
    | true, .waiting _ => some (d.setPhase i .returned)
    | true, .offering j n => some (d.setPhase i (.leaving j n))
    | _, _ => none
  | .requeue =>
    match l.phase with
    | .leaving j _ => some ((d.setPhase i .returned).requeue closed j)
    | _ => none
  | .quit =>
    match closed, l.phase with
    | true, .waiting _ | true, .offering _ _ => some (d.setPhase i .returned)
    | _, _ => none

/-- What loops and timers do, step by step. -/
def step (closed : Bool) : FetchAction → Option (Dispatch D)
  | .fetchJobs keys =>
    some (if closed then d else { d with loops := d.loops ++ [⟨keys, false, .looking⟩] })
  | .loop i a => d.loops[i]?.bind fun l => d.loopStep closed i l a
  | .timeOut n => (d.jobs.timers.fire n).map fun ts => d.setTimers ts
  | .redeliver n => (d.jobs.timers.call n).map fun (j, ts) => (d.setTimers ts).requeue closed j

/-! ## What a step does -/

/-- Loop `i` is about to give up delivery `n` of job `j`. -/
def Leaves (i j n : ℕ) : Prop := ∃ l, d.loops[i]? = some l ∧ l.phase = .leaving j n

/-- Loop `i` is about to take job `j`. -/
def Takes (closed : Bool) (i j : ℕ) : Prop :=
  closed = false ∧ ∃ l jobs, d.loops[i]? = some l ∧ l.phase = .looking ∧
    d.jobs.takePendingLocked l.keys = some (j, jobs)

/-- What a step does to the jobs, to what is held and to what was received. -/
inductive Effect (closed : Bool) (d : Dispatch D) : FetchAction → Dispatch D → Prop
  | quiet {a : FetchAction} {d' : Dispatch D} (hjobs : d'.jobs = d.jobs) (hheld : d'.held = d.held)
      (hreceived : d'.received = d.received) : Effect closed d a d'
  | take {d' : Dispatch D} (i : ℕ) (k : ProcessKey) (j : ℕ) (q : List ℕ)
      (htakes : d.Takes closed i j)
      (hi : d.held i = none) (hq : d.jobs.queues k = j :: q) (hjobs : d'.jobs = d.jobs.take k j q)
      (hheld : d'.held = Function.update d.held i (some (j, d.jobs.timers.length)))
      (hreceived : d'.received = d.received) : Effect closed d (.loop i .look) d'
  | hand {d' : Dispatch D} (i j n : ℕ) (hi : d.held i = some (j, n)) (hjobs : d'.jobs = d.jobs)
      (hheld : d'.held = Function.update d.held i none)
      (hreceived : d'.received = insert j d.received) : Effect closed d (.loop i .hand) d'
  | quit {d' : Dispatch D} (i j n : ℕ) (hclosed : closed = true) (hi : d.held i = some (j, n))
      (hjobs : d'.jobs = d.jobs) (hheld : d'.held = Function.update d.held i none)
      (hreceived : d'.received = d.received) : Effect closed d (.loop i .quit) d'
  | drop {d' : Dispatch D} (i j n : ℕ) (hleaves : d.Leaves i j n) (hi : d.held i = some (j, n))
      (hj : closed = true ∨ d.jobs.settled j = true ∨ j ∉ d.jobs.inFlight)
        (hjobs : d'.jobs = d.jobs)
      (hheld : d'.held = Function.update d.held i none)
      (hreceived : d'.received = d.received) : Effect closed d (.loop i .requeue) d'
  | putBack {d' : Dispatch D} (i j n : ℕ) (hleaves : d.Leaves i j n) (hi : d.held i = some (j, n))
      (hopen : closed = false)
      (hj : j ∈ d.jobs.inFlight) (hjobs : d'.jobs = d.jobs.putBack j)
      (hheld : d'.held = Function.update d.held i none)
      (hreceived : d'.received = d.received) : Effect closed d (.loop i .requeue) d'
  | timeOut {d' : Dispatch D} (n : ℕ) (ts : Timers ℕ) (hts : d.jobs.timers.fire n = some ts)
      (hjobs : d'.jobs = d.jobs.setTimers ts) (hheld : d'.held = d.held)
      (hreceived : d'.received = d.received) : Effect closed d (.timeOut n) d'
  | expire {d' : Dispatch D} (n j : ℕ) (ts : Timers ℕ) (hts : d.jobs.timers.call n = some (j, ts))
      (hjobs : d'.jobs = d.jobs.setTimers ts) (hheld : d'.held = d.held)
      (hreceived : d'.received = d.received) : Effect closed d (.redeliver n) d'
  | redeliver {d' : Dispatch D} (n j : ℕ) (ts : Timers ℕ)
      (hts : d.jobs.timers.call n = some (j, ts))
      (hopen : closed = false) (hj : j ∈ d.jobs.inFlight)
      (hjobs : d'.jobs = (d.jobs.setTimers ts).putBack j) (hheld : d'.held = d.held)
      (hreceived : d'.received = d.received) : Effect closed d (.redeliver n) d'

variable {d} {i : ℕ} {l : FetchLoop} {closed : Bool}

/-- What is held after one loop was changed. -/
lemma held_modify {f : FetchLoop → FetchLoop} (hl : d.loops[i]? = some l) :
    ({ d with loops := d.loops.modify i f } : Dispatch D).held =
      update d.held i (f l).phase.held := by
  funext i'
  rw [held, List.getElem?_modify, update_apply]
  by_cases hi : i' = i
  · rw [if_pos hi, hi, hl]
    simp
  · rw [if_neg hi]
    simp [held, Ne.symm hi]

lemma held_setPhase {p : LoopPhase} (hl : d.loops[i]? = some l) :
    (d.setPhase i p).held = update d.held i p.held := held_modify hl

lemma held_eq (hl : d.loops[i]? = some l) : d.held i = l.phase.held := by
  rw [held, hl]
  rfl

/-- A change of phase that keeps what is held. -/
lemma held_setPhase_eq {p : LoopPhase} (hl : d.loops[i]? = some l) (hp : p.held = l.phase.held) :
    (d.setPhase i p).held = d.held := by
  rw [held_setPhase hl, hp, ← held_eq hl, update_eq_self]

lemma requeue_eq_self {j : ℕ} (h : closed ∨ d.jobs.settled j ∨ j ∉ d.jobs.inFlight) :
    d.requeue closed j = d := if_pos h

lemma requeue_eq_putBack {j : ℕ} (h : ¬ (closed ∨ d.jobs.settled j ∨ j ∉ d.jobs.inFlight)) :
    d.requeue closed j = { d with jobs := d.jobs.putBack j, generation := d.generation + 1 } :=
      if_neg h

lemma Effect.of_look (hl : d.loops[i]? = some l) (hphase : l.phase = .looking) :
    Effect closed d (.loop i .look) (d.look closed i l.keys) := by
  have hfree : d.held i = none := by rw [held_eq hl, hphase]; rfl
  rw [look]
  split
  · exact .quiet rfl (held_setPhase_eq hl (by rw [hphase]; rfl)) rfl
  · rename_i hopen
    split
    · exact .quiet rfl (held_setPhase_eq hl (by rw [hphase]; rfl)) rfl
    · rename_i j jobs htake
      obtain ⟨k, -, q, hq, rfl⟩ := JobTable.takePendingLocked_eq_some htake
      have htakes : d.Takes closed i j := ⟨by simpa using hopen, l, _, hl, hphase, htake⟩
      exact .take i k j q htakes hfree hq rfl (held_setPhase hl) rfl

lemma Effect.of_loopStep {a : LoopAction} {d' : Dispatch D} (hl : d.loops[i]? = some l)
    (h : d.loopStep closed i l a = some d') : Effect closed d (.loop i a) d' := by
  have hheld := held_eq hl
  cases a with
  | look =>
    rw [loopStep, Option.ite_none_right_eq_some] at h
    obtain ⟨hphase, h⟩ := h
    cases h
    exact .of_look hl hphase
  | wake =>
    rw [loopStep] at h
    split at h
    · rename_i g hphase
      split at h
      · cases h
      · cases h
        exact .quiet rfl (held_setPhase_eq hl (by rw [hphase]; rfl)) rfl
    · cases h
  | hand =>
    rw [loopStep] at h
    split at h
    · rename_i j n hphase
      cases h
      rw [hphase] at hheld
      exact .hand i j n hheld rfl (held_setPhase hl) rfl
    · cases h
  | cancel =>
    cases h
    refine .quiet rfl ((held_modify hl).trans ?_) rfl
    rw [← hheld, update_eq_self]
  | giveUp =>
    rw [loopStep] at h
    split at h
    · rename_i hphase
      cases h
      exact .quiet rfl (held_setPhase_eq hl (by rw [hphase]; rfl)) rfl
    · rename_i hphase
      cases h
      exact .quiet rfl (held_setPhase_eq hl (by rw [hphase]; rfl)) rfl
    · cases h
  | requeue =>
    rw [loopStep] at h
    split at h
    · rename_i j n hphase
      cases h
      rw [hphase] at hheld
      by_cases hj : closed = true ∨ d.jobs.settled j = true ∨ j ∉ d.jobs.inFlight
      · rw [requeue_eq_self (d := d.setPhase i .returned) hj]
        exact .drop i j n ⟨l, hl, hphase⟩ hheld hj rfl (held_setPhase hl) rfl
      · rw [requeue_eq_putBack (d := d.setPhase i .returned) hj]
        rw [not_or, not_or, not_not] at hj
        exact .putBack i j n ⟨l, hl, hphase⟩ hheld (by simpa using hj.1) hj.2.2
          rfl (held_setPhase hl) rfl
    · cases h
  | quit =>
    cases closed with
    | false => cases h
    | true =>
      cases hphase : l.phase with
      | waiting g =>
        simp only [loopStep, hphase, Option.some.injEq] at h
        exact h ▸ .quiet rfl (held_setPhase_eq hl (by rw [hphase]; rfl)) rfl
      | offering j n =>
        simp only [loopStep, hphase, Option.some.injEq] at h
        rw [hphase] at hheld
        exact h ▸ .quit i j n rfl hheld rfl (held_setPhase hl) rfl
      | looking | leaving j n | returned => simp [loopStep, hphase] at h

/-- Every step does one of the things that `Effect` lists. -/
lemma Effect.of_step {a : FetchAction} {d' : Dispatch D} (h : d.step closed a = some d') :
    Effect closed d a d' := by
  cases a with
  | fetchJobs keys =>
    cases h
    split
    · exact .quiet rfl rfl rfl
    · refine .quiet rfl ?_ rfl
      funext i
      rw [held, held]
      by_cases hi : i < d.loops.length
      · rw [List.getElem?_append_left hi]
      · rw [List.getElem?_eq_none (not_lt.1 hi)]
        rcases Nat.lt_or_eq_of_le (not_lt.1 hi) with hlt | heq
        · rw [List.getElem?_eq_none (by simpa using Nat.succ_le_of_lt hlt)]
        · rw [← heq, List.getElem?_concat_length]
          rfl
  | loop i a =>
    obtain ⟨l, hl, h⟩ := Option.bind_eq_some_iff.1 h
    exact .of_loopStep hl h
  | timeOut n =>
    obtain ⟨ts, hts, rfl⟩ := Option.map_eq_some_iff.1 h
    exact .timeOut n ts hts rfl rfl rfl
  | redeliver n =>
    obtain ⟨⟨j, ts⟩, hts, rfl⟩ := Option.map_eq_some_iff.1 h
    dsimp only
    by_cases hj : closed = true ∨ d.jobs.settled j = true ∨ j ∉ d.jobs.inFlight
    · rw [requeue_eq_self (d := d.setTimers ts) hj]
      exact .expire n j ts hts rfl rfl rfl
    · rw [requeue_eq_putBack (d := d.setTimers ts) hj]
      rw [not_or, not_or, not_not] at hj
      exact .redeliver n j ts hts (by simpa using hj.1) hj.2.2 rfl rfl rfl

end Dispatch

end Broker

end Blkit
