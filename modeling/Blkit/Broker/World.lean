import Blkit.Broker.Dispatch
import Blkit.Broker.Registry
import Blkit.Broker.Resumes
import Blkit.Broker.Topics
import Blkit.Control.Machine
import Blkit.Data.Fallible

/-!
# The in-memory broker

The broker as a machine.  An action is a whole call, or one step of what goes on between
calls: a fetch loop, a timer, the pump of a watcher, a reader, the sweeper.  A call holds
the lock from its first look at the broker to its end, so it is one step; the clock stands
still while it is held.  A call that is refused leaves the broker as it was.

Instance ids are drawn so that none is drawn that was ever in use.

`Step` says once what each action can do.  Everything that is said about runs rests on it.
-/

namespace Blkit

namespace Broker

variable {D : Type}

structure Config (D : Type) where
  wire : Wire D
  /-- `InputContract.Validate` -/
  validate : D → D → Except String Unit
  eventBufferSize : Int
  registrationTTL : Int
  eventRetention : Int

/-- What a call finds: whether its context has ended, the time, and how fast subscribers
read while it publishes its first and its second event. -/
structure Call where
  cancelled : Bool
  now : Int
  pace : Pace
  pace' : Pace

/-- What a worker reports about an instance. -/
inductive Report (D : Type) where
  | running
  | suspended (resumeAt : Option Int)
  | finished (o : Outcome D)
  | error (e : InstanceError)
  | inputRequest (nodeID requestID : String) (payload : D)
  | nodeCompleted (nodeID nodeKind : String) (outputs : D)

inductive Action (D : Type) where
  | fetch (a : FetchAction)
  | registry (a : RegistryAction D)
  | submit (c : Call) (order : List ℕ) (instanceID : String) (req : StartRequest D)
  | cancel (c : Call) (order : List ℕ) (req : StopRequest)
  | terminate (c : Call) (order : List ℕ) (req : StopRequest)
  | respondToInputRequest (c : Call) (instanceID requestID : String) (payload : D)
  | report (c : Call) (instanceID : String) (what : Report D)
  | subscribeToInstance (now : Int) (instanceID : String)
  | unsubscribe (i : ℕ)
  | read (i n : ℕ)
  | resumeDue (n : ℕ)
  | resume (n : ℕ)
  | sweep (now : Int) (order : List ℕ)
  | close

structure World (D : Type) where
  closed : Bool
  dispatch : Dispatch D
  topics : Topics D
  resumes : Resumes
  registry : Registry D

/-- Go on if the condition holds. -/
def require (b : Bool) (e : Refusal) : Except Refusal Unit := if b then .ok () else .error e

/-- Go on with a value if there is one. -/
def demand {α : Type} (o : Option α) (e : Refusal) : Except Refusal α := o.elim (.error e) .ok

namespace World

/-- `NewInMemoryMessageBroker`. -/
def new : World D := ⟨false, .empty, .empty, .empty, .empty⟩

variable (cfg : Config D) (w : World D) (c : Call)

/-! ## Under the lock -/

/-- `enqueueLocked`. -/
def enqueueLocked (job : Job D) : Except Refusal (World D) :=
  match cfg.wire.job job with
  | .ok job' => .ok { w with dispatch := w.dispatch.enqueue job' }
  | .error msg => .error (.publish msg)

/-- `publishLocked`. -/
def publishLocked (instanceID : String) (body : EventBody D) : World D :=
  { w with topics := w.topics.publishLocked cfg.wire c.now c.pace instanceID body }

/-- `finishLocked`. -/
def finishLocked (instanceID : String) (o : Outcome D) : World D :=
  { w with
    dispatch := w.dispatch.settleInstanceLocked instanceID
    resumes := w.resumes.finish instanceID
    topics := w.topics.finishLocked cfg.wire cfg.eventRetention c.now c.pace c.pace' instanceID o }

/-! ## Producers -/

/-- The start event of the request, if its input passes. -/
def checkStart (reg : ProcessRegistration D) (req : StartRequest D) : Except Refusal Unit :=
  match reg.startEvents.find? fun start => start.id = req.startID with
  | none => .error .unknownStartID
  | some start =>
    match start.inputContract with
    | none => .ok ()
    | some contract => (cfg.validate contract req.input).mapError .contract

/-- The job that `Submit` queues. -/
def startJob (instanceID : String) (req : StartRequest D) : Job D :=
  ⟨req.key, .start instanceID req.startID req.input req.correlationKey⟩

/-- `Submit`. -/
def submit (order : List ℕ) (instanceID : String) (req : StartRequest D) :
    Except Refusal (World D) := do
  require (!c.cancelled) .context
  require (!w.closed) .brokerClosed
  let reg ← demand (w.registry.liveRegistrationLocked c.now order req.key) .unknownProcess
  checkStart cfg reg req
  let w' ← w.enqueueLocked cfg (startJob instanceID req)
  .ok (({ w' with topics := w'.topics.submit instanceID req.key req.correlationKey } :
    World D).publishLocked
    cfg c instanceID (.lifecycle .pending))

/-- `Cancel`. -/
def cancel (order : List ℕ) (req : StopRequest) : Except Refusal (World D) := do
  require (!c.cancelled) .context
  require (!w.closed) .brokerClosed
  let reg ← demand (w.registry.liveRegistrationLocked c.now order req.key) .unknownProcess
  match w.dispatch.jobs.removeQueuedStartLocked req.key req.instanceID with
  | some jobs =>
    .ok (({ w with dispatch := { w.dispatch with jobs := jobs } } : World D).finishLocked cfg c
      req.instanceID .cancelled)
  | none => do
    require reg.allowExternalCancel .cancelNotAllowed
    w.enqueueLocked cfg ⟨req.key, .cancel req.instanceID req.reason⟩

/-- `Terminate`. -/
def terminate (order : List ℕ) (req : StopRequest) : Except Refusal (World D) := do
  require (!c.cancelled) .context
  require (!w.closed) .brokerClosed
  let reg ← demand (w.registry.liveRegistrationLocked c.now order req.key) .unknownProcess
  require reg.allowExternalTerminate .terminateNotAllowed
  w.enqueueLocked cfg ⟨req.key, .terminate req.instanceID req.reason⟩

/-- The event for a response that reaches no instance. -/
def strayResponse (code : String) : EventBody D :=
  .error ⟨code, "respond-to-input for an instance the broker does not hold"⟩

/-- `RespondToInputRequest`. -/
def respondToInputRequest (instanceID requestID : String) (payload : D) :
    Except Refusal (World D) := do
  require (!c.cancelled) .context
  require (!w.closed) .brokerClosed
  match w.topics.insts instanceID with
  | none => .ok (w.publishLocked cfg c instanceID (strayResponse errCodeInstanceNotFound))
  | some rec =>
    if rec.finished then
      .ok (w.publishLocked cfg c instanceID (strayResponse errCodeAlreadyFinished))
    else w.enqueueLocked cfg ⟨rec.key, .respondToInput instanceID requestID payload⟩

/-! ## Workers -/

/-- `ReportRunning`, under the lock. -/
def reportRunning (instanceID : String) : World D :=
  { w.publishLocked cfg c instanceID (.lifecycle .running) with
    resumes := w.resumes.note (.running instanceID) }

/-- `ReportSuspended`, under the lock. -/
def reportSuspended (instanceID : String) (resumeAt : Option Int) : World D :=
  { w.publishLocked cfg c instanceID (.lifecycle .suspended) with
    dispatch := w.dispatch.settleInstanceLocked instanceID
    resumes := w.resumes.suspend instanceID resumeAt }

/-- What each report does under the lock. -/
def apply (instanceID : String) : Report D → World D
  | .running => w.reportRunning cfg c instanceID
  | .suspended resumeAt => w.reportSuspended cfg c instanceID resumeAt
  -- `ReportCompleted`, `ReportFailed` and `ReportCancelled`
  | .finished o => w.finishLocked cfg c instanceID o
  -- `PostError`, `PostInputRequest` and `PostNodeCompleted`
  | .error e => w.publishLocked cfg c instanceID (.error e)
  | .inputRequest nodeID requestID payload =>
    w.publishLocked cfg c instanceID (.inputRequest nodeID requestID payload)
  | .nodeCompleted nodeID nodeKind outputs =>
    w.publishLocked cfg c instanceID (.nodeCompleted nodeID nodeKind outputs)

/-- `report`. -/
def report (instanceID : String) (what : Report D) : Except Refusal (World D) := do
  require (!c.cancelled) .context
  require (decide (instanceID ≠ "")) .unknownProcess
  require (!w.closed) .brokerClosed
  .ok (w.apply cfg c instanceID what)

/-! ## Subscribers, timers and the end -/

/-- `SubscribeToInstance`. -/
def subscribeToInstance (now : Int) (instanceID : String) : Except Refusal (World D) := do
  require (!w.closed) .brokerClosed
  .ok { w with
    topics := w.topics.subscribeToInstance (max cfg.eventBufferSize 2).toNat now instanceID }

/-- The callback that `ReportSuspended` gives to its timer. -/
def resume (n : ℕ) : Option (World D) :=
  (w.resumes.call n).map fun (id, resumes) =>
    let w₁ : World D := { w with resumes := resumes }
    match w.closed, w.topics.insts id with
    | false, some rec =>
      if rec.finished then w₁
      else match w₁.enqueueLocked cfg ⟨rec.key, .resume id⟩ with
        | .ok w₂ => { w₂ with resumes := resumes.note (.resumed id n) }
        | .error _ => w₁
    | _, _ => w₁

/-- One round of `sweep`. -/
def sweep (now : Int) (order : List ℕ) : World D :=
  { w with registry := w.registry.sweep now order, topics := w.topics.sweep now }

/-- `Close`. -/
def close : World D :=
  if w.closed then w
  else ⟨true, w.dispatch.close, w.topics.close, w.resumes.close, w.registry.close⟩

/-! ## The machine -/

/-- The id was never in use. -/
def Fresh (instanceID : String) : Prop :=
  w.topics.insts instanceID = none ∧ instanceID ∉ w.topics.ended ∧
    ∀ job ∈ w.dispatch.jobs.accepted, job.instanceID ≠ instanceID

instance (instanceID : String) : Decidable (w.Fresh instanceID) :=
  have : Decidable (w.topics.insts instanceID = none) :=
    match w.topics.insts instanceID with
    | none => .isTrue rfl
    | some _ => .isFalse nofun
  inferInstanceAs (Decidable (_ ∧ _ ∧ _))

/-- A call changes the broker when it succeeds. -/
def settleCall (x : Except Refusal (World D)) : World D :=
  match x with
  | .ok w' => w'
  | .error _ => w

def step (cfg : Config D) (w : World D) : Action D → Option (World D)
  | .fetch a => (w.dispatch.step w.closed a).map fun d => { w with dispatch := d }
  | .registry a => (w.registry.step w.closed cfg.registrationTTL a).map fun r =>
    { w with registry := r }
  | .submit c order id req =>
    if w.registry.Visits order ∧
      w.Fresh id then some (w.settleCall (w.submit cfg c order id req)) else none
  | .cancel c order req =>
    if w.registry.Visits order then some (w.settleCall (w.cancel cfg c order req)) else none
  | .terminate c order req =>
    if w.registry.Visits order then some (w.settleCall (w.terminate cfg c order req)) else none
  | .respondToInputRequest c id requestID payload =>
    some (w.settleCall (w.respondToInputRequest cfg c id requestID payload))
  | .report c id what => some (w.settleCall (w.report cfg c id what))
  | .subscribeToInstance now id => some (w.settleCall (w.subscribeToInstance cfg now id))
  | .unsubscribe i => some { w with topics := w.topics.unsubscribe i }
  | .read i n => some { w with topics := w.topics.read i n }
  | .resumeDue n =>
    (w.resumes.timers.fire n).map fun ts => { w with resumes := { w.resumes with timers := ts } }
  | .resume n => w.resume cfg n
  | .sweep now order => if w.registry.Visits order then some (w.sweep now order) else none
  | .close => some w.close

end World

/-- The broker as a machine. -/
def machine (cfg : Config D) : Machine (World D) (Action D) := ⟨World.step cfg⟩

/-! ## What an action does -/

/-- The calls that send a job to a worker, and the job. -/
inductive Sends (w : World D) : Action D → Job D → Prop
  | cancel (c : Call) (order : List ℕ) (req : StopRequest) :
    Sends w (.cancel c order req) ⟨req.key, .cancel req.instanceID req.reason⟩
  | terminate (c : Call) (order : List ℕ) (req : StopRequest) :
    Sends w (.terminate c order req) ⟨req.key, .terminate req.instanceID req.reason⟩
  | respond (c : Call) (id requestID : String) (payload : D) (rec : Instance D)
      (hrec : w.topics.insts id = some rec) (hlive : rec.finished = false) :
    Sends w (.respondToInputRequest c id requestID payload)
      ⟨rec.key, .respondToInput id requestID payload⟩

/-- The calls that publish an event and do nothing else. -/
inductive Says (w : World D) : Action D → Call → String → EventBody D → Prop
  | unknown (c : Call) (id requestID : String) (payload : D) (hrec : w.topics.insts id = none) :
    Says w (.respondToInputRequest c id requestID payload) c id
      (World.strayResponse errCodeInstanceNotFound)
  | late (c : Call) (id requestID : String) (payload : D) (rec : Instance D)
      (hrec : w.topics.insts id = some rec) (hfinished : rec.finished = true) :
    Says w (.respondToInputRequest c id requestID payload) c id
      (World.strayResponse errCodeAlreadyFinished)
  | error (c : Call) (id : String) (e : InstanceError) :
      Says w (.report c id (.error e)) c id (.error e)
  | inputRequest (c : Call) (id nodeID requestID : String) (payload : D) :
    Says w (.report c id (.inputRequest nodeID requestID payload)) c id
      (.inputRequest nodeID requestID payload)
  | nodeCompleted (c : Call) (id nodeID nodeKind : String) (outputs : D) :
    Says w (.report c id (.nodeCompleted nodeID nodeKind outputs)) c id
      (.nodeCompleted nodeID nodeKind outputs)

/-- The broker after a successful `Submit`. -/
def World.submitted (cfg : Config D) (w : World D) (c : Call) (id : String)
    (req : StartRequest D) (job : Job D) :
    World D :=
  ({ w with
      dispatch := w.dispatch.enqueue job
      topics := w.topics.submit id req.key req.correlationKey } : World D).publishLocked cfg
        c id (.lifecycle .pending)

/-- The broker without a queued job. -/
def World.without (w : World D) (jobs : JobTable D) : World D :=
  { w with dispatch := { w.dispatch with jobs := jobs } }

/-- All that an action can do. -/
inductive Step (cfg : Config D) (w : World D) : Action D → World D → Prop
  | refused (a : Action D) : Step cfg w a w
  | fetch (a : FetchAction) (d : Dispatch D) (hd : w.dispatch.step w.closed a = some d) :
    Step cfg w (.fetch a) { w with dispatch := d }
  | registry (a : RegistryAction D) (r : Registry D)
      (hr : w.registry.step w.closed cfg.registrationTTL a = some r) :
    Step cfg w (.registry a) { w with registry := r }
  | submit (c : Call) (order : List ℕ) (id : String) (req : StartRequest D) (job : Job D)
      (hopen : w.closed = false)
      (hfresh : w.Fresh id) (hjob : cfg.wire.job (World.startJob id req) = .ok job) :
    Step cfg w (.submit c order id req) (w.submitted cfg c id req job)
  | cancelQueued (c : Call) (order : List ℕ) (req : StopRequest) (jobs : JobTable D)
      (hopen : w.closed = false)
      (hjobs : w.dispatch.jobs.removeQueuedStartLocked req.key req.instanceID = some jobs) :
    Step cfg w (.cancel c order req) ((w.without jobs).finishLocked cfg c req.instanceID .cancelled)
  | send (a : Action D) (job job' : Job D) (hopen : w.closed = false) (ha : Sends w a job)
      (hjob : cfg.wire.job job = .ok job') :
    Step cfg w a { w with dispatch := w.dispatch.enqueue job' }
  | say (a : Action D) (c : Call) (id : String) (body : EventBody D) (hopen : w.closed = false)
      (ha : Says w a c id body) : Step cfg w a (w.publishLocked cfg c id body)
  | running (c : Call) (id : String) (hopen : w.closed = false) :
    Step cfg w (.report c id .running) (w.reportRunning cfg c id)
  | suspended (c : Call) (id : String) (resumeAt : Option Int) (hopen : w.closed = false) :
    Step cfg w (.report c id (.suspended resumeAt)) (w.reportSuspended cfg c id resumeAt)
  | finished (c : Call) (id : String) (o : Outcome D) (hopen : w.closed = false) :
    Step cfg w (.report c id (.finished o)) (w.finishLocked cfg c id o)
  | subscribe (now : Int) (id : String) (hopen : w.closed = false) :
    Step cfg w (.subscribeToInstance now id)
      { w with topics := w.topics.subscribeToInstance (max cfg.eventBufferSize 2).toNat now id }
  | unsubscribe (i : ℕ) : Step cfg w (.unsubscribe i) { w with topics := w.topics.unsubscribe i }
  | read (i n : ℕ) : Step cfg w (.read i n) { w with topics := w.topics.read i n }
  | resumeDue (n : ℕ) (ts : Timers String) (hts : w.resumes.timers.fire n = some ts) :
    Step cfg w (.resumeDue n) { w with resumes := { w.resumes with timers := ts } }
  | resumeIdle (n : ℕ) (id : String) (resumes : Resumes)
      (hcall : w.resumes.call n = some (id, resumes)) :
    Step cfg w (.resume n) { w with resumes := resumes }
  | resume (n : ℕ) (id : String) (resumes : Resumes) (rec : Instance D) (job : Job D)
      (hopen : w.closed = false)
      (hcall : w.resumes.call n = some (id, resumes)) (hrec : w.topics.insts id = some rec)
      (hlive : rec.finished = false) (hjob : cfg.wire.job ⟨rec.key, .resume id⟩ = .ok job) :
    Step cfg w (.resume n)
      { w with resumes := resumes.note (.resumed id n), dispatch := w.dispatch.enqueue job }
  | sweep (now : Int) (order : List ℕ) (horder : w.registry.Visits order) :
    Step cfg w (.sweep now order) (w.sweep now order)
  | close (hopen : w.closed = false) :
    Step cfg w .close ⟨true, w.dispatch.close, w.topics.close, w.resumes.close, w.registry.close⟩

namespace Step

open Fallible

variable {cfg : Config D} {w w' : World D} {c : Call} {a : Action D}

lemma of_subscribe {now : Int} {id : String} (hopen : w.closed = false)
    (h : (machine cfg).step w (.subscribeToInstance now id) = some w') :
    w' = { w with
      topics := w.topics.subscribeToInstance (max cfg.eventBufferSize 2).toNat now id } := by
  change some (w.settleCall (w.subscribeToInstance cfg now id)) = _ at h
  rw [World.subscribeToInstance, require, if_pos (by rw [hopen]; rfl)] at h
  exact (Option.some.inj h).symm

/-- A call that is refused, or one that is not. -/
lemma of_call {x : Except Refusal (World D)} (h : some (w.settleCall x) = some w')
    (hx : ∀ w₁, x = .ok w₁ → Step cfg w a w₁) : Step cfg w a w' := by
  cases x with
  | ok w₁ =>
    cases h
    exact hx w₁ rfl
  | error e =>
    cases h
    exact .refused a

lemma enqueueLocked_eq_ok {job : Job D} (h : w.enqueueLocked cfg job = .ok w') :
    ∃ job', cfg.wire.job job = .ok job' ∧ w' = { w with dispatch := w.dispatch.enqueue job' } := by
  rw [World.enqueueLocked] at h
  split at h
  · rename_i job' hjob
    cases h
    exact ⟨job', hjob, rfl⟩
  · cases h

lemma open_of_require {u : Unit} (h : require (!w.closed) .brokerClosed = .ok u) :
    w.closed = false := by
  cases hw : w.closed with
  | false => rfl
  | true => simp [require, hw] at h

variable {order : List ℕ} {id : String}

lemma of_submit {req : StartRequest D} (hfresh : w.Fresh id)
    (h : w.submit cfg c order id req = .ok w') : Step cfg w (.submit c order id req) w' := by
  obtain ⟨_, -, h⟩ := bind_eq_ok.1 h
  obtain ⟨_, hopen, h⟩ := bind_eq_ok.1 h
  obtain ⟨reg, -, h⟩ := bind_eq_ok.1 h
  obtain ⟨_, -, h⟩ := bind_eq_ok.1 h
  obtain ⟨w₁, hw₁, h⟩ := bind_eq_ok.1 h
  obtain ⟨job, hjob, rfl⟩ := enqueueLocked_eq_ok hw₁
  cases h
  exact .submit c order id req job (open_of_require hopen) hfresh hjob

variable {req : StopRequest}

lemma of_cancel (h : w.cancel cfg c order req = .ok w') : Step cfg w (.cancel c order req) w' := by
  obtain ⟨_, -, h⟩ := bind_eq_ok.1 h
  obtain ⟨_, hopen, h⟩ := bind_eq_ok.1 h
  obtain ⟨reg, -, h⟩ := bind_eq_ok.1 h
  split at h
  · rename_i jobs hjobs
    cases h
    exact .cancelQueued c order req jobs (open_of_require hopen) hjobs
  · obtain ⟨_, -, h⟩ := bind_eq_ok.1 h
    obtain ⟨job', hjob', rfl⟩ := enqueueLocked_eq_ok h
    exact .send _ _ job' (open_of_require hopen) (.cancel c order req) hjob'

lemma of_terminate (h : w.terminate cfg c order req = .ok w') :
    Step cfg w (.terminate c order req) w' := by
  obtain ⟨_, -, h⟩ := bind_eq_ok.1 h
  obtain ⟨_, hopen, h⟩ := bind_eq_ok.1 h
  obtain ⟨reg, -, h⟩ := bind_eq_ok.1 h
  obtain ⟨_, -, h⟩ := bind_eq_ok.1 h
  obtain ⟨job', hjob', rfl⟩ := enqueueLocked_eq_ok h
  exact .send _ _ job' (open_of_require hopen) (.terminate c order req) hjob'

lemma of_respond {requestID : String} {payload : D}
    (h : w.respondToInputRequest cfg c id requestID payload = .ok w') :
    Step cfg w (.respondToInputRequest c id requestID payload) w' := by
  obtain ⟨_, -, h⟩ := bind_eq_ok.1 h
  obtain ⟨_, hopen, h⟩ := bind_eq_ok.1 h
  have hopen := open_of_require hopen
  split at h
  · rename_i hrec
    cases h
    exact .say _ c id _ hopen (.unknown c id requestID payload hrec)
  · rename_i rec hrec
    split at h
    · rename_i hfinished
      cases h
      exact .say _ c id _ hopen (.late c id requestID payload rec hrec hfinished)
    · rename_i hlive
      obtain ⟨job', hjob', rfl⟩ := enqueueLocked_eq_ok h
      exact .send _ _ job' hopen
        (.respond c id requestID payload rec hrec (by simpa using hlive)) hjob'

lemma of_report {what : Report D} (h : w.report cfg c id what = .ok w') :
    Step cfg w (.report c id what) w' := by
  obtain ⟨_, -, h⟩ := bind_eq_ok.1 h
  obtain ⟨_, -, h⟩ := bind_eq_ok.1 h
  obtain ⟨_, hopen, h⟩ := bind_eq_ok.1 h
  have hopen := open_of_require hopen
  cases h
  cases what with
  | running => exact .running c id hopen
  | suspended resumeAt => exact .suspended c id resumeAt hopen
  | finished o => exact .finished c id o hopen
  | error e => exact .say _ c id _ hopen (.error c id e)
  | inputRequest nodeID requestID payload =>
    exact .say _ c id _ hopen (.inputRequest c id nodeID requestID payload)
  | nodeCompleted nodeID nodeKind outputs =>
    exact .say _ c id _ hopen (.nodeCompleted c id nodeID nodeKind outputs)

lemma of_resume {n : ℕ} (h : w.resume cfg n = some w') : Step cfg w (.resume n) w' := by
  obtain ⟨⟨id, resumes⟩, hcall, rfl⟩ := Option.map_eq_some_iff.1 h
  dsimp only
  split
  · rename_i rec hclosed hrec
    split
    · exact .resumeIdle n id resumes hcall
    · rename_i hlive
      split
      · rename_i w₂ hw₂
        obtain ⟨job, hjob, rfl⟩ := enqueueLocked_eq_ok hw₂
        exact .resume n id resumes rec job hclosed hcall hrec (by simpa using hlive) hjob
      · exact .resumeIdle n id resumes hcall
  · exact .resumeIdle n id resumes hcall

/-- An action does one of the things that `Step` lists. -/
lemma of_step (h : (machine cfg).step w a = some w') : Step cfg w a w' := by
  cases a with
  | fetch a =>
    obtain ⟨d, hd, rfl⟩ := Option.map_eq_some_iff.1 h
    exact .fetch a d hd
  | registry a =>
    obtain ⟨r, hr, rfl⟩ := Option.map_eq_some_iff.1 h
    exact .registry a r hr
  | submit c order id req =>
    obtain ⟨⟨-, hfresh⟩, h⟩ := Option.ite_none_right_eq_some.1 h
    exact of_call h fun _ => of_submit hfresh
  | cancel c order req =>
    obtain ⟨-, h⟩ := Option.ite_none_right_eq_some.1 h
    exact of_call h fun _ => of_cancel
  | terminate c order req =>
    obtain ⟨-, h⟩ := Option.ite_none_right_eq_some.1 h
    exact of_call h fun _ => of_terminate
  | respondToInputRequest c id requestID payload => exact of_call h fun _ => of_respond
  | report c id what => exact of_call h fun _ => of_report
  | subscribeToInstance now id =>
    refine of_call h fun w₁ hw₁ => ?_
    obtain ⟨_, hopen, hw₁⟩ := bind_eq_ok.1 hw₁
    cases hw₁
    exact .subscribe now id (open_of_require hopen)
  | unsubscribe i =>
    cases h
    exact .unsubscribe i
  | read i n =>
    cases h
    exact .read i n
  | resumeDue n =>
    obtain ⟨ts, hts, rfl⟩ := Option.map_eq_some_iff.1 h
    exact .resumeDue n ts hts
  | resume n => exact of_resume h
  | sweep now order =>
    obtain ⟨horder, h⟩ := Option.ite_none_right_eq_some.1 h
    cases h
    exact .sweep now order horder
  | close =>
    cases h
    rw [World.close]
    split
    · exact .refused _
    · rename_i hopen
      exact .close (by simpa using hopen)

end Step

/-! ## A small broker

One worker that runs one process, and one instance of it. -/

def sampleConfig : Config Unit := ⟨.clear Unit, fun _ _ => .ok (), 64, 90, 3600⟩

def sampleKey : ProcessKey := ⟨"orders", "ship", "1"⟩

def sampleCall (now : Int) : Call := ⟨false, now, fun _ => (0, 0), fun _ => (0, 0)⟩

def sampleReg : ProcessRegistration Unit :=
  ⟨sampleKey, none, none, [⟨"start", "", none⟩], [], true, true, "", "", 0, 0⟩

/-- The worker registers and an instance is submitted. -/
def sampleSubmit : List (Action Unit) :=
  [.registry (.registerProcesses false 0 "worker" [sampleReg]),
    .submit (sampleCall 1) [0] "i" ⟨sampleKey, "start", (), none⟩]

/-- A fetch loop takes its start job. -/
def sampleTake : List (Action Unit) :=
  sampleSubmit ++ [.fetch (.fetchJobs [sampleKey]), .fetch (.loop 0 .look)]

end Broker

end Blkit
