import Blkit.Broker.Message
import Mathlib.Data.List.Perm.Basic
import Mathlib.Logic.Function.Basic

/-!
# Workers and the registry feed

What workers have registered, and the watchers that are told about it.  Go walks a map in
any order; a step that walks the workers is given the order, and holds for each.

A watcher has a queue without bound and a goroutine that takes one update at a time out of
it and offers it to the reader.  While an update is offered it is neither in the queue nor
received: it is in the goroutine's hand.
-/

namespace Blkit

namespace Broker

variable {D : Type}

/-- `RegistryUpdate`. -/
inductive RegistryUpdate (D : Type) where
  | snapshot (r : ProcessRegistration D)
  | snapshotComplete
  | added (r : ProcessRegistration D)
  | removed (r : ProcessRegistration D)
  | heartbeatLost (r : ProcessRegistration D)
deriving DecidableEq, Repr

/-- `inMemWorker`. -/
structure Worker (D : Type) where
  id : String
  regs : List (ProcessRegistration D)
  deadline : Int
  firstReg : ProcessKey → Option Int

/-- `registryPump`. -/
structure Pump (D : Type) where
  queue : List (RegistryUpdate D)
  hand : Option (RegistryUpdate D)
  received : List (RegistryUpdate D)
  /-- in `regSubs`; a pump is stopped when it is taken out -/
  attached : Bool
  returned : Bool

structure Registry (D : Type) where
  workers : List (Worker D)
  pumps : List (Pump D)

/-! ## Stamping -/

/-- The loop of `RegisterProcesses` that stamps the registrations: the time a key was first
registered is kept. -/
def stampRegs (workerID : String) (now : Int) :
    (ProcessKey → Option Int) → List (ProcessRegistration D) →
    List (ProcessRegistration D) × (ProcessKey → Option Int)
  | firstReg, [] => ([], firstReg)
  | firstReg, r :: rs =>
    let first := (firstReg r.key).getD now
    let (stamped, firstReg') :=
      stampRegs workerID now (Function.update firstReg r.key (some first)) rs
    ({ r with workerID := workerID, registeredAt := first, lastHeartbeat := now } ::
      stamped, firstReg')

/-! ## The pump -/

namespace Pump

variable (p : Pump D)

/-- `push`. -/
def push (us : List (RegistryUpdate D)) : Pump D := { p with queue := p.queue ++ us }

/-- The goroutine takes the next update. -/
def pop : Option (Pump D) :=
  match p.returned, p.hand, p.queue with
  | false, none, u :: q => some { p with hand := some u, queue := q }
  | _, _, _ => none

/-- The reader receives it. -/
def deliver : Option (Pump D) :=
  match p.hand with
  | some u => some { p with hand := none, received := p.received ++ [u] }
  | none => none

/-- `stop`. -/
def stop : Pump D := { p with attached := false }

/-- The goroutine notices that it was stopped. -/
def quit : Option (Pump D) :=
  if p.attached = false ∧ p.returned = false ∧ (p.hand.isSome = true ∨ p.queue = []) then
    some { p with hand := none, returned := true }
  else none

/-- All updates the watcher was ever sent. -/
def feed : List (RegistryUpdate D) := p.received ++ p.hand.toList ++ p.queue

end Pump

/-! ## The registry -/

/-- What workers, watchers and the pumps of the watchers do. -/
inductive RegistryAction (D : Type) where
  | registerProcesses (cancelled : Bool) (now : Int) (workerID : String)
      (regs : List (ProcessRegistration D))
  | heartbeat (cancelled : Bool) (now : Int) (workerID : String)
  | unregister (cancelled : Bool) (workerID : String)
  | watch (order : List ℕ)
  | unwatch (i : ℕ)
  | pop (i : ℕ)
  | deliver (i : ℕ)
  | quit (i : ℕ)

namespace Registry

def empty : Registry D := ⟨[], []⟩

variable (r : Registry D)

/-- The workers in the order in which a loop walks them. -/
def visit (order : List ℕ) : List (Worker D) := order.filterMap (r.workers[·]?)

/-- The order walks every worker once. -/
def Visits (order : List ℕ) : Prop := order.Perm (List.range r.workers.length)

instance (order : List ℕ) : Decidable (r.Visits order) :=
  inferInstanceAs (Decidable (List.Perm _ _))

/-- `emitRegistryUpdateLocked`, for several updates in turn. -/
def emit (us : List (RegistryUpdate D)) : Registry D :=
  { r with pumps := r.pumps.map fun p => if p.attached then p.push us else p }

/-- `b.workers[workerID]`. -/
def worker (workerID : String) : Option (Worker D) := r.workers.find? fun w => w.id = workerID

/-- The workers without this one. -/
def others (workerID : String) : List (Worker D) := r.workers.eraseP fun w => w.id = workerID

/-- `RegisterProcesses`. -/
def registerProcesses (closed : Bool) (ttl : Int) (cancelled : Bool) (now : Int) (workerID : String)
    (regs : List (ProcessRegistration D)) : Except Refusal (Registry D) :=
  if cancelled then .error .context
  else if closed then .error .brokerClosed
  else
    let old := r.worker workerID
    let (stamped, firstReg) :=
      stampRegs workerID now (old.elim (fun _ => none) Worker.firstReg) regs
    let r₁ := r.emit ((old.elim [] Worker.regs).map .removed)
    let r₂ : Registry D :=
      { r₁ with workers := r.others workerID ++ [⟨workerID, stamped, now + ttl, firstReg⟩] }
    .ok (r₂.emit (stamped.map .added))

/-- `Heartbeat`. -/
def heartbeat (closed : Bool) (ttl : Int) (cancelled : Bool) (now : Int) (workerID : String) :
    Except Refusal (Registry D) :=
  if cancelled then .error .context
  else if closed then .error .brokerClosed
  else match r.worker workerID with
    | none => .error .unknownWorker
    | some w =>
      .ok { r with workers := r.others workerID ++
              [{ w with deadline := now + ttl, regs := w.regs.map fun reg =>
                { reg with lastHeartbeat := now } }] }

/-- `Unregister`. -/
def unregister (closed cancelled : Bool) (workerID : String) : Except Refusal (Registry D) :=
  if cancelled then .error .context
  else if closed then .error .brokerClosed
  else match r.worker workerID with
    | none => .error .unknownWorker
    | some w =>
      .ok (({ r with workers := r.others workerID } : Registry D).emit (w.regs.map .removed))

/-- `SubscribeToProcessRegistry`. -/
def watch (closed : Bool) (order : List ℕ) : Except Refusal (Registry D) :=
  if closed then .error .brokerClosed
  else
    let us := (r.visit order).flatMap fun w => w.regs.map .snapshot
    .ok { r with pumps := r.pumps ++ [⟨us ++ [.snapshotComplete], none, [], true, false⟩] }

/-- The context of a watcher ends. -/
def unwatch (i : ℕ) : Registry D := { r with pumps := r.pumps.modify i Pump.stop }

/-- What `sweep` does to the workers. -/
def sweep (now : Int) (order : List ℕ) : Registry D :=
  let lost := (r.visit order).filter fun w => w.deadline < now
  ({ r with workers := r.workers.filter fun w => !decide (w.deadline < now) } : Registry D).emit
    (lost.flatMap fun w => w.regs.map .heartbeatLost)

/-- What `Close` does to the watchers. -/
def close : Registry D := { r with pumps := r.pumps.map Pump.stop }

/-- `liveRegistrationLocked`. -/
def liveRegistrationLocked (now : Int) (order : List ℕ) (key : ProcessKey) :
    Option (ProcessRegistration D) :=
  (((r.visit order).filter fun w => !decide (w.deadline < now)).flatMap Worker.regs).find?
    fun reg => reg.key = key

/-- One pump takes a step. -/
def pumpStep (i : ℕ) (f : Pump D → Option (Pump D)) : Option (Registry D) :=
  (r.pumps[i]?.bind f).map fun p => { r with pumps := r.pumps.set i p }

/-- A call changes the registry when it succeeds. -/
def settleCall (x : Except Refusal (Registry D)) : Registry D :=
  match x with
  | .ok r' => r'
  | .error _ => r

def step (closed : Bool) (ttl : Int) : RegistryAction D → Option (Registry D)
  | .registerProcesses cancelled now workerID regs =>
    some (r.settleCall (r.registerProcesses closed ttl cancelled now workerID regs))
  | .heartbeat cancelled now workerID =>
    some (r.settleCall (r.heartbeat closed ttl cancelled now workerID))
  | .unregister cancelled workerID => some (r.settleCall (r.unregister closed cancelled workerID))
  | .watch order => if r.Visits order then some (r.settleCall (r.watch closed order)) else none
  | .unwatch i => some (r.unwatch i)
  | .pop i => r.pumpStep i Pump.pop
  | .deliver i => r.pumpStep i Pump.deliver
  | .quit i => r.pumpStep i Pump.quit

end Registry

end Broker

end Blkit
