import Blkit.Control.Timer
import Mathlib.Logic.Function.Basic

/-!
# Timed resumes

A suspension that gives a resume time starts a timer; its callback enqueues a resume job.
`pending` is the map `timers` of the broker.  The log of what was reported, and of the
resume jobs that were enqueued, is kept for what is said about them: the code does not have
it.
-/

namespace Blkit

namespace Broker

/-- What the log of resumes records. -/
inductive Mark where
  /-- reported suspended, with the number of the timer if a resume time was given -/
  | suspended (instanceID : String) (timer : Option ℕ)
  | running (instanceID : String)
  | finished (instanceID : String)
  /-- the callback of a timer has enqueued a resume job -/
  | resumed (instanceID : String) (timer : ℕ)
deriving DecidableEq, Repr

def Mark.instanceID : Mark → String
  | .suspended id _ => id
  | .running id => id
  | .finished id => id
  | .resumed id _ => id

structure Resumes where
  pending : String → Option ℕ
  timers : Timers String
  log : List Mark

namespace Resumes

def empty : Resumes := ⟨fun _ => none, [], []⟩

variable (r : Resumes)

def note (m : Mark) : Resumes := { r with log := r.log ++ [m] }

/-- The timers after the pending one of the instance, if there is one, was stopped. -/
def stopPending (instanceID : String) : Timers String :=
  (r.pending instanceID).elim r.timers r.timers.stop

/-- What `ReportSuspended` does to the timers. -/
def suspend (instanceID : String) (resumeAt : Option Int) : Resumes :=
  match resumeAt with
  | none => r.note (.suspended instanceID none)
  | some _ =>
    { pending := Function.update r.pending instanceID (some r.timers.length)
      timers := (r.stopPending instanceID).start instanceID
      log := r.log ++ [.suspended instanceID (some r.timers.length)] }

/-- What `finishLocked` does to the timers. -/
def finish (instanceID : String) : Resumes :=
  { pending := Function.update r.pending instanceID none
    timers := r.stopPending instanceID
    log := r.log ++ [.finished instanceID] }

/-- The callback of a timer gets the lock and forgets the timer. -/
def call (n : ℕ) : Option (String × Resumes) :=
  (r.timers.call n).map fun (id, ts) =>
    (id, { r with pending := Function.update r.pending id none, timers := ts })

/-- What `Close` does to the timers. -/
def close : Resumes :=
  { r with
    pending := fun _ => none
    timers := r.timers.mapIdx fun i tm =>
      if r.pending tm.load = some i ∧ tm.state = .armed then { tm with state := .spent } else tm }

variable {r} {r' : Resumes} {n : ℕ} {id : String}

lemma call_eq_some (h : r.call n = some (id, r')) : ∃ ts, r.timers.call n = some (id, ts) ∧
      r' = { r with pending := Function.update r.pending id none, timers := ts } := by
  obtain ⟨⟨id', ts⟩, hts, heq⟩ := Option.map_eq_some_iff.1 h
  cases heq
  exact ⟨ts, hts, rfl⟩

/-- Only the callback of a timer that is due gets the lock. -/
lemma due_of_call (h : r.call n = some (id, r')) : r.timers[n]? = some ⟨id, .due⟩ := by
  obtain ⟨ts, hts, -⟩ := call_eq_some h
  exact (Timers.call_eq_some hts).1

end Resumes

end Broker

end Blkit
