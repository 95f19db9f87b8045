import Mathlib.Data.List.Basic

/-!
# What the broker passes on

Jobs, instance events, registrations and requests.  The broker looks at ids, kinds and
process keys; what it only hands through (inputs, results, contracts) is of a type `D`.
-/

namespace Blkit

/-- `ProcessStatus`. -/
inductive ProcessStatus where
  | pending | running | suspended | completed | cancelled | failed
deriving DecidableEq, Repr

/-- The phases an instance does not leave. -/
def ProcessStatus.Terminal : ProcessStatus → Bool
  | .completed | .cancelled | .failed => true
  | _ => false

namespace Broker

/-- `ProcessKey`: the routing key of a process version. -/
structure ProcessKey where
  ns : String
  processID : String
  version : String
deriving DecidableEq, Repr

/-- The zero value. -/
def ProcessKey.zero : ProcessKey := ⟨"", "", ""⟩

/-! ## Jobs -/

/-- The payload of a `Job`, by its kind. -/
inductive Work (D : Type) where
  | start (instanceID startID : String) (input : D) (correlationKey : Option String)
  | respondToInput (instanceID requestID : String) (payload : D)
  | cancel (instanceID : String) (reason : Option String)
  | terminate (instanceID : String) (reason : Option String)
  | resume (instanceID : String)
deriving DecidableEq, Repr

structure Job (D : Type) where
  key : ProcessKey
  work : Work D
deriving DecidableEq, Repr

variable {D : Type}

def Work.instanceID : Work D → String
  | .start id _ _ _ => id
  | .respondToInput id _ _ => id
  | .cancel id _ => id
  | .terminate id _ => id
  | .resume id => id

/-- `Job.InstanceID`. -/
def Job.instanceID (j : Job D) : String := j.work.instanceID

/-- The job starts the instance. -/
def Job.starts (j : Job D) (instanceID : String) : Bool :=
  match j.work with
  | .start id _ _ _ => id = instanceID
  | _ => false

/-- The same job with other data. -/
def Work.map (f : D → D) : Work D → Work D
  | .start id startID input ck => .start id startID (f input) ck
  | .respondToInput id requestID payload => .respondToInput id requestID (f payload)
  | .cancel id reason => .cancel id reason
  | .terminate id reason => .terminate id reason
  | .resume id => .resume id

def Job.map (f : D → D) (j : Job D) : Job D := ⟨j.key, j.work.map f⟩

@[simp] lemma Job.key_map (f : D → D) (j : Job D) : (j.map f).key = j.key := rfl

@[simp] lemma Job.instanceID_map (f : D → D) (j : Job D) : (j.map f).instanceID = j.instanceID := by
  obtain ⟨k, w⟩ := j
  cases w <;> rfl

@[simp] lemma Job.starts_map (f : D → D) (j : Job D) (id : String) :
    (j.map f).starts id = j.starts id := by
  obtain ⟨k, w⟩ := j
  cases w <;> rfl

lemma Job.instanceID_of_starts {j : Job D} {id : String} (h : j.starts id) : j.instanceID = id := by
  obtain ⟨k, w⟩ := j
  cases w with
  | start id' startID input ck => exact of_decide_eq_true h
  | respondToInput _ _ _ | cancel _ _ | terminate _ _ | resume _ => cases h

/-! ## Events -/

/-- `InstanceError`. -/
structure InstanceError where
  code : String
  message : String
deriving DecidableEq, Repr

/-- The payload of an `InstanceEvent`, by its kind. -/
inductive EventBody (D : Type) where
  | lifecycle (phase : ProcessStatus)
  | inputRequest (nodeID requestID : String) (payload : D)
  | nodeCompleted (nodeID nodeKind : String) (outputs : D)
  | error (e : InstanceError)
  | result (r : D)
deriving DecidableEq, Repr

structure InstanceEvent (D : Type) where
  instanceID : String
  correlationKey : Option String
  body : EventBody D
  occurredAt : Int
deriving DecidableEq, Repr

def EventBody.map (f : D → D) : EventBody D → EventBody D
  | .lifecycle phase => .lifecycle phase
  | .inputRequest nodeID requestID payload => .inputRequest nodeID requestID (f payload)
  | .nodeCompleted nodeID nodeKind outputs => .nodeCompleted nodeID nodeKind (f outputs)
  | .error e => .error e
  | .result r => .result (f r)

/-- The same event with other data. -/
def InstanceEvent.map (f : D → D) (e : InstanceEvent D) : InstanceEvent D :=
  { e with body := e.body.map f }

/-- The phase a lifecycle event reports. -/
def InstanceEvent.phase (e : InstanceEvent D) : Option ProcessStatus :=
  match e.body with
  | .lifecycle phase => some phase
  | _ => none

/-! ## The wire -/

/-- The round trip of jobs and events through the envelope.  A job may fail to come back,
an event that does is used as it is; what comes back differs in its data alone, which the
decoder reads in its own way. -/
structure Wire (D : Type) where
  job : Job D → Except String (Job D)
  event : InstanceEvent D → InstanceEvent D
  job_map : ∀ j j', job j = .ok j' → ∃ f : D → D, j' = j.map f
  event_map : ∀ e, ∃ f : D → D, event e = e.map f

/-- A wire on which nothing is lost. -/
def Wire.clear (D : Type) : Wire D where
  job := .ok
  event := id
  job_map := fun j j' h => ⟨id, by
    cases h
    obtain ⟨k, w⟩ := j
    cases w <;> rfl⟩
  event_map := fun e => ⟨id, by
    obtain ⟨i, ck, b, t⟩ := e
    cases b <;> rfl⟩

/-! ## Registrations and requests -/

/-- `StartEventInfo`. -/
structure StartEventInfo (D : Type) where
  id : String
  name : String
  inputContract : Option D
deriving DecidableEq, Repr

/-- `EndEventInfo`. -/
structure EndEventInfo (D : Type) where
  id : String
  name : String
  contract : Option D
deriving DecidableEq, Repr

/-- `ProcessRegistration`. -/
structure ProcessRegistration (D : Type) where
  key : ProcessKey
  name : Option String
  description : Option String
  startEvents : List (StartEventInfo D)
  endEvents : List (EndEventInfo D)
  allowExternalCancel : Bool
  allowExternalTerminate : Bool
  markdown : String
  workerID : String
  registeredAt : Int
  lastHeartbeat : Int
deriving DecidableEq, Repr

/-- `StartRequest`. -/
structure StartRequest (D : Type) where
  key : ProcessKey
  startID : String
  input : D
  correlationKey : Option String

/-- `CancelRequest` and `TerminateRequest`. -/
structure StopRequest where
  key : ProcessKey
  instanceID : String
  reason : Option String

/-- Why a call is refused. -/
inductive Refusal where
  | context | unknownProcess | unknownStartID | cancelNotAllowed | terminateNotAllowed
  | unknownWorker | brokerClosed
  | contract (msg : String)
  | publish (msg : String)
deriving DecidableEq, Repr

/-- The codes of errors on an instance's topic. -/
def errCodeInstanceNotFound : String := "INSTANCE_NOT_FOUND"

def errCodeAlreadyFinished : String := "ALREADY_FINISHED"

def errCodeBackpressureDrop : String := "BACKPRESSURE_DROP"

end Broker

end Blkit
