import Blkit.Broker.Acts
import Blkit.Broker.World
import Blkit.Redis.Server

/-!
# The calls of the broker

Each call as the program it runs: the commands it issues, in their order, and what it does
with the replies.  A command whose error the code ignores is attempted; after any other
error the call returns.  Loops that run for ever (fetching, moving timers, sweeping) are
calls that run one round of the loop.
-/

namespace Blkit

namespace Redis

open Broker Prog

/-- How things are put into envelopes and read back: reading back what was put in changes
nothing but data. -/
structure Codec (D B : Type) where
  encodeJob : Job D → Except String B
  decodeJob : B → Except String (Job D)
  encodeEvent : InstanceEvent D → Except String B
  decodeEvent : B → Except String (InstanceEvent D)
  encodeReg : ProcessRegistration D → Except String B
  decodeReg : B → Except String (ProcessRegistration D)
  encodeUpdate : RegistryUpdate D → Except String B
  decodeJob_encode : ∀ j b, encodeJob j = .ok b → ∃ f : D → D, decodeJob b = .ok (j.map f)
  decodeEvent_encode : ∀ e b, encodeEvent e = .ok b → ∃ f : D → D, decodeEvent b = .ok (e.map f)

structure Config (D B : Type) where
  codec : Codec D B
  /-- `InputContract.Validate` -/
  validate : D → D → Except String Unit
  registrationTTL : Int

/-- What a call returns. -/
inductive Answer (D : Type) where
  | nothing
  | instance (id : String)
  /-- what is in the channel, whether it is closed, and from where on it follows the stream -/
  | events (sent : List (InstanceEvent D)) (closed : Bool) (lastID : ℕ)
deriving DecidableEq, Repr

/-- A part of a call. -/
abbrev Act (B : Type) := Try (Cmd B) Cmd.Reply Failure

def ask {B : Type} (c : Cmd B) : Act B c.Reply := must .server c

def attempt {B : Type} (c : Cmd B) : Act B (Option c.Reply) := Prog.attempt Failure c

variable {D B : Type} (cfg : Config D B)

/-! ## Keys and kinds -/

/-- `encodeKey`, up to the base64 encoding of the whole. -/
def encodeKey (k : ProcessKey) : String := k.ns ++ "\x00" ++ k.processID ++ "\x00" ++ k.version

/-- What is before and behind the first NUL. -/
def cutNul (l : List Char) : Option (List Char × List Char) :=
  match l.span fun c => c ≠ '\x00' with
  | (a, _ :: b) => some (a, b)
  | _ => none

def decodeKey (s : String) : Option ProcessKey := do
  let (ns, l) ← cutNul s.toList
  let (processID, version) ← cutNul l
  return ⟨String.ofList ns, String.ofList processID, String.ofList version⟩

/-- `jobKindWire`. -/
def jobKindWire : Work D → JobKind
  | .start _ _ _ _ => .start
  | .respondToInput _ _ _ => .respondToInput
  | .cancel _ _ => .cancel
  | .terminate _ _ => .terminate
  | .resume _ => .resume

/-- `eventKindName`. -/
def eventKindName : EventBody D → EventKind
  | .lifecycle _ => .lifecycle
  | .inputRequest _ _ _ => .input
  | .nodeCompleted _ _ _ => .node
  | .error _ => .error
  | .result _ => .result

/-- What every call checks first, with the id of a report in between. -/
def check (b : ℕ) (idOk : Bool) : Act B Unit := do
  refuseUnless (← ask .alive) .context
  refuseUnless idOk .unknownProcess
  refuse (← ask (.checkOpen b))

/-! ## Workers and registrations -/

def msOf (ns : Int) : Int := ns / 1000000

/-- `decodeRegFields`. -/
def decodeRegFields (r : Regs B) : List (ProcessRegistration D) :=
  r.regs.filterMap fun x =>
    match cfg.codec.decodeReg x.2 with
    | .ok reg => some { reg with lastHeartbeat := r.hb * 1000000 }
    | .error _ => none

/-- `snapshotRegistrations`, behind the scan. -/
def readRegs (now : Int) : List String → Act B (List (ProcessRegistration D))
  | [] => pure []
  | worker :: rest => do
    let fields ← ask (.hgetallReg worker)
    let regs ← readRegs now rest
    match fields with
    | none => return regs
    | some r => return if r.deadline < now then regs else decodeRegFields cfg r ++ regs

def snapshotRegistrations : Act B (List (ProcessRegistration D)) := do
  let now ← ask .now
  readRegs cfg (msOf now) (← ask .scanRegs)

/-- `liveRegistration`, when there is none an error. -/
def liveRegistration (key : ProcessKey) : Act B (ProcessRegistration D) := do
  match (← snapshotRegistrations cfg).find? fun reg => reg.key = key with
  | none => throw (.refused .unknownProcess)
  | some reg => return reg

/-- `publishRegistryUpdate`. -/
def publishRegistryUpdate (u : RegistryUpdate D) : Act B Unit :=
  match cfg.codec.encodeUpdate u with
  | .ok env => do
    let _ ← attempt (.publish env)
    return ()
  | .error _ => pure ()

def publishUpdates : List (RegistryUpdate D) → Act B Unit
  | [] => pure ()
  | u :: us => do
    publishRegistryUpdate cfg u
    publishUpdates us

/-- A field of the hash is set. -/
def setField {α : Type} (l : List (String × α)) (k : String) (a : α) : List (String × α) :=
  l.filter (fun x => x.1 ≠ k) ++ [(k, a)]

/-- The loop of `RegisterProcesses` that stamps and encodes the registrations. -/
def stampFields (worker : String) (now : Int) (firsts : List (String × Int)) :
    List (ProcessRegistration D) → Regs B → Act B (List (ProcessRegistration D) × Regs B)
  | [], r => pure ([], r)
  | reg :: regs, r => do
    let enc := encodeKey reg.key
    let first := ((firsts.lookup enc).map (· * 1000000)).getD now
    let reg' := { reg with workerID := worker, registeredAt := first, lastHeartbeat := now }
    let data ← orThrow .encode (cfg.codec.encodeReg reg')
    let (stamped, r') ← stampFields worker now firsts regs
      { r with regs := setField r.regs enc data, firsts := setField r.firsts enc (msOf first) }
    return (reg' :: stamped, r')

def registerProcesses (b : ℕ) (worker : String) (regs : List (ProcessRegistration D)) :
    Act B (Answer D) := do
  check b true
  let existing ← ask (.hgetallReg worker)
  let now ← ask .now
  let (stamped, fields) ← stampFields cfg worker now ((existing.map Regs.firsts).getD []) regs
    ⟨msOf (now + cfg.registrationTTL), msOf now, [], []⟩
  ask (.setReg worker fields)
  publishUpdates cfg (((existing.map (decodeRegFields cfg)).getD []).map .removed)
  publishUpdates cfg (stamped.map .added)
  return .nothing

def heartbeat (b : ℕ) (worker : String) : Act B (Answer D) := do
  check b true
  let now ← ask .now
  refuseUnless (← ask (.heartbeat worker (msOf (now + cfg.registrationTTL)) (msOf now)))
    .unknownWorker
  return .nothing

def unregister (b : ℕ) (worker : String) : Act B (Answer D) := do
  check b true
  match ← ask (.unregister worker) with
  | none => throw (.refused .unknownWorker)
  | some r =>
    publishUpdates cfg ((decodeRegFields cfg r).map .removed)
    return .nothing

/-- The body of the loop of `sweepRegistry` over the workers. -/
def sweepWorker (worker : String) : Act B Unit := do
  let now ← ask .now
  match ← attempt (.sweep worker (msOf now)) with
  | some (some r) => publishUpdates cfg ((decodeRegFields cfg r).map .heartbeatLost)
  | _ => return ()

def sweepWorkers : List String → Act B Unit
  | [] => pure ()
  | worker :: rest => do
    sweepWorker cfg worker
    sweepWorkers rest

/-- One round of `sweepRegistry`. -/
def sweepRegistry : Act B (Answer D) := do
  match ← attempt .scanRegs with
  | none => return .nothing
  | some workers =>
    sweepWorkers cfg workers
    return .nothing

/-! ## Jobs -/

/-- `ensureGroup`. -/
def ensureGroup (b : ℕ) (stream : String) : Act B Unit := do
  if ← ask (.hasGroup b stream) then return ()
  ask (.xgroupCreate stream)
  ask (.noteGroup b stream)

/-- `addJob`. -/
def addJob (stream : String) (job : Job D) : Act B Unit := do
  let data ← orThrow .encode (cfg.codec.encodeJob job)
  ask (.xaddJob stream (jobKindWire job.work) job.instanceID data)

/-- The loop of `FetchJobs` over its keys. -/
def ensureGroups (b : ℕ) : List ProcessKey → Act B Unit
  | [] => pure ()
  | k :: ks => do
    ensureGroup b (encodeKey k)
    ensureGroups b ks

def fetchJobs (b : ℕ) (keys : List ProcessKey) : Act B (Answer D) := do
  refuse (← ask (.checkOpen b))
  ensureGroups b keys
  return .nothing

/-- `deliverJob`; false when the fetcher is gone. -/
def deliverJob (b : ℕ) (stream : String) (m : JobEntry B) : Act B Bool :=
  match cfg.codec.decodeJob m.env with
  | .error _ => do
    let _ ← attempt (.xack stream m.id)
    let _ ← attempt (.xdel stream m.id)
    return true
  | .ok job => do
    ask (.noteDelivery b job.instanceID stream m.id)
    ask (.hand stream m.id)

def deliverAll (b : ℕ) : List (String × JobEntry B) → Act B Bool
  | [] => pure true
  | (stream, m) :: rest => do
    if ← deliverJob cfg b stream m then deliverAll b rest else return false

/-- The pass of `fetchLoop` that reclaims. -/
def claimAll (b : ℕ) : List String → Act B Bool
  | [] => pure true
  | stream :: rest => do
    let found ← attempt (.xautoclaim stream)
    if ← deliverAll cfg b ((found.getD []).map fun m => (stream, m)) then claimAll b rest
      else return false

/-- The pass of `fetchLoop` that reads new entries. -/
def readAll (b : ℕ) (streams : List String) : Act B (Answer D) := do
  let new ← attempt (.xreadgroup streams)
  let _ ← deliverAll cfg b (new.getD [])
  return .nothing

/-- One round of `fetchLoop`, with the pass that reclaims or without. -/
def fetchLoop (b : ℕ) (keys : List ProcessKey) (reclaim : Bool) : Act B (Answer D) := do
  let go ← claimAll cfg b (if reclaim then keys.map encodeKey else [])
  if go then readAll cfg b (keys.map encodeKey) else return .nothing

/-- The loop of `settle`. -/
def settleAll : List (String × ℕ) → Act B Unit
  | [] => pure ()
  | (stream, entry) :: rest => do
    let _ ← attempt (.xack stream entry)
    let _ ← attempt (.xdel stream entry)
    settleAll rest

/-- `settle`. -/
def settle (b : ℕ) (inst : String) : Act B Unit := do
  settleAll (← ask (.takeDeliveries b inst))

/-! ## Events -/

/-- The phase in the clear. -/
def phaseField : EventBody D → Option ProcessStatus
  | .lifecycle phase => some phase
  | _ => none

/-- `publishInstanceEvent`. -/
def publishInstanceEvent (inst : String) (body : EventBody D) : Act B Unit := do
  let corr ← attempt (.hgetCorr inst)
  let now ← ask .now
  let data ← orThrow .encode (cfg.codec.encodeEvent ⟨inst, corr.join, body, now⟩)
  ask (.xaddInst inst (eventKindName body) (phaseField body) data)

/-- The event that follows the terminal lifecycle event, if there is one. -/
def publishExtra (inst : String) (extra : Option (EventBody D)) : Act B Unit :=
  match extra with
  | none => pure ()
  | some body => publishInstanceEvent cfg inst body

/-- The end of `finish`, when this call is the one that finishes the instance. -/
def conclude (inst : String) (o : Outcome D) : Act B (Answer D) := do
  publishInstanceEvent cfg inst (.lifecycle o.phase)
  publishExtra cfg inst o.extra
  let _ ← attempt (.pexpireMeta inst)
  let _ ← attempt (.pexpireInst inst)
  return .nothing

/-- `finish`. -/
def finish (b : ℕ) (inst : String) (o : Outcome D) : Act B (Answer D) := do
  settle b inst
  let _ ← attempt (.zrem inst)
  if ← ask (.hsetnxFinished inst) then conclude cfg inst o else return .nothing

/-! ## Producers -/

/-- `Submit`; the id is the one it draws. -/
def submit (b : ℕ) (inst : String) (req : StartRequest D) : Act B (Answer D) := do
  check b true
  let reg ← liveRegistration cfg req.key
  checkStart cfg.validate reg req
  ask (.hsetMeta inst (encodeKey req.key) req.correlationKey)
  ensureGroup b (encodeKey req.key)
  addJob cfg (encodeKey req.key) ⟨req.key, .start inst req.startID req.input req.correlationKey⟩
  publishInstanceEvent cfg inst (.lifecycle .pending)
  return .instance inst

/-- `Cancel`. -/
def cancel (b : ℕ) (req : StopRequest) : Act B (Answer D) := do
  check b true
  let reg ← liveRegistration cfg req.key
  ensureGroup b (encodeKey req.key)
  if ← ask (.cancelQueued (encodeKey req.key) req.instanceID) then
    finish cfg b req.instanceID .cancelled
  else
    refuseUnless reg.allowExternalCancel .cancelNotAllowed
    addJob cfg (encodeKey req.key) ⟨req.key, .cancel req.instanceID req.reason⟩
    return .nothing

/-- `Terminate`. -/
def terminate (b : ℕ) (req : StopRequest) : Act B (Answer D) := do
  check b true
  let reg ← liveRegistration cfg req.key
  refuseUnless reg.allowExternalTerminate .terminateNotAllowed
  ensureGroup b (encodeKey req.key)
  addJob cfg (encodeKey req.key) ⟨req.key, .terminate req.instanceID req.reason⟩
  return .nothing

/-- The event for a response that reaches no instance. -/
def strayResponse (code : String) : EventBody D :=
  .error ⟨code, "respond-to-input for an instance the broker does not hold"⟩

/-- What is done with a response, by the metadata of its instance. -/
def passOn (b : ℕ) (inst requestID : String) (payload : D) : Option Meta → Act B Unit
  | none => publishInstanceEvent cfg inst (strayResponse errCodeInstanceNotFound)
  | some m =>
    if m.finished then publishInstanceEvent cfg inst (strayResponse errCodeAlreadyFinished)
    else match m.key.bind decodeKey with
      | none => throw .corruptKey
      | some key => do
        ensureGroup b (encodeKey key)
        addJob cfg (encodeKey key) ⟨key, .respondToInput inst requestID payload⟩

/-- `RespondToInputRequest`. -/
def respondToInputRequest (b : ℕ) (inst requestID : String) (payload : D) : Act B (Answer D) := do
  check b true
  passOn cfg b inst requestID payload (← ask (.hgetallMeta inst))
  return .nothing

/-! ## Workers' reports -/

/-- `ReportSuspended`. -/
def reportSuspended (b : ℕ) (inst : String) (resumeAt : Option Int) : Act B (Answer D) := do
  publishInstanceEvent cfg inst (.lifecycle .suspended)
  settle b inst
  match resumeAt with
  | none => return .nothing
  | some t =>
    ask (.zadd inst (msOf t))
    return .nothing

/-- The event that a report publishes and nothing else. -/
def post (inst : String) (body : EventBody D) : Act B (Answer D) := do
  publishInstanceEvent cfg inst body
  return .nothing

/-- The reports: `ReportRunning` and so on. -/
def report (b : ℕ) (inst : String) (what : Report D) : Act B (Answer D) := do
  check b (inst ≠ "")
  match what with
  | .running => post cfg inst (.lifecycle .running)
  | .suspended resumeAt => reportSuspended cfg b inst resumeAt
  | .finished o => finish cfg b inst o
  | .error e => post cfg inst (.error e)
  | .inputRequest nodeID requestID payload => post cfg inst (.inputRequest nodeID requestID payload)
  | .nodeCompleted nodeID nodeKind outputs => post cfg inst (.nodeCompleted nodeID nodeKind outputs)

/-! ## Subscribers -/

/-- What a look at a stream finds: the latest lifecycle event and the terminal event. -/
structure Replay (B : Type) where
  latest : Option (EventEntry B)
  terminal : Option (EventEntry B)
  phase : Option ProcessStatus

/-- The body of the loop over the entries. -/
def Replay.see (r : Replay B) (e : EventEntry B) : Replay B :=
  match e.kind with
  | .lifecycle => { r with latest := some e, phase := e.phase.or r.phase }
  | .result => { r with terminal := some e }
  | .error => if r.phase = some .failed then { r with terminal := some e } else r
  | .input | .node => r

def replay (entries : List (EventEntry B)) : Replay B := entries.foldl Replay.see ⟨none, none, none⟩

/-- `decodeInstanceEventEntry`. -/
def decodeInstanceEventEntry (e : EventEntry B) : Option (InstanceEvent D) :=
  match cfg.codec.decodeEvent e.env with
  | .ok evt => some evt
  | .error _ => none

/-- The entries that are replayed, as far as they can be read. -/
def Replay.events (r : Replay B) : List (InstanceEvent D) :=
  (r.latest.bind (decodeInstanceEventEntry cfg)).toList ++
    (r.terminal.bind (decodeInstanceEventEntry cfg)).toList

/-- The first event for a subscriber to an id nothing is known of. -/
def notFound (inst : String) (now : Int) : InstanceEvent D :=
  ⟨inst, none, .error ⟨errCodeInstanceNotFound, "no events visible for this instance"⟩, now⟩

/-- What `SubscribeToInstance` does with the entries it has found. -/
def replayEntries (inst : String) (entries : List (EventEntry B)) : Act B (Answer D) :=
  match entries.getLast? with
  | none => do
    if ← ask (.existsMeta inst) then return .events [] false 0
    return .events [notFound inst (← ask .now)] false 0
  | some last =>
    pure (.events ((replay entries).events cfg) ((replay entries).phase.any ProcessStatus.Terminal)
      last.id)

/-- `SubscribeToInstance`, up to the point from which it follows the stream. -/
def subscribeToInstance (b : ℕ) (inst : String) : Act B (Answer D) := do
  refuse (← ask (.checkOpen b))
  replayEntries cfg inst (← ask (.xrangeInst inst))

/-! ## Timers -/

/-- `fireTimer`. -/
def fireTimer (b : ℕ) (inst : String) : Act B Unit := do
  match ← attempt (.hgetallMeta inst) with
  | some (some m) =>
    if m.finished then return ()
    else match m.key.bind decodeKey with
      | none => return ()
      | some key =>
        ensureGroup b (encodeKey key)
        addJob cfg (encodeKey key) ⟨key, .resume inst⟩
  | _ => return ()

def fireTimers (b : ℕ) : List String → Act B Unit
  | [] => pure ()
  | inst :: rest => do
    quietly (if inst = "" then pure () else fireTimer cfg b inst)
    fireTimers b rest

/-- One round of `moveTimers`. -/
def moveTimers (b : ℕ) : Act B (Answer D) := do
  let now ← ask .now
  let due ← attempt (.dueTimers (msOf now))
  fireTimers cfg b (due.getD [])
  return .nothing

/-! ## The system -/

inductive Call (D : Type) where
  | submit (b : ℕ) (inst : String) (req : StartRequest D)
  | cancel (b : ℕ) (req : StopRequest)
  | terminate (b : ℕ) (req : StopRequest)
  | respondToInputRequest (b : ℕ) (inst requestID : String) (payload : D)
  | report (b : ℕ) (inst : String) (what : Report D)
  | subscribeToInstance (b : ℕ) (inst : String)
  | registerProcesses (b : ℕ) (worker : String) (regs : List (ProcessRegistration D))
  | heartbeat (b : ℕ) (worker : String)
  | unregister (b : ℕ) (worker : String)
  | sweepRegistry
  | fetchJobs (b : ℕ) (keys : List ProcessKey)
  | fetchLoop (b : ℕ) (keys : List ProcessKey) (reclaim : Bool)
  | moveTimers (b : ℕ)
  | close (b : ℕ)
  /-- the time of a key has come -/
  | expireMeta (inst : String)
  | expireInst (inst : String)

/-- The instance that a call is about. -/
def Call.inst : Call D → Option String
  | .submit _ inst _ => some inst
  | .cancel _ req => some req.instanceID
  | .terminate _ req => some req.instanceID
  | .respondToInputRequest _ inst _ _ => some inst
  | .report _ inst _ => some inst
  | .subscribeToInstance _ inst => some inst
  | _ => none

def body : Call D → Act B (Answer D)
  | .submit b inst req => submit cfg b inst req
  | .cancel b req => cancel cfg b req
  | .terminate b req => terminate cfg b req
  | .respondToInputRequest b inst requestID payload =>
    respondToInputRequest cfg b inst requestID payload
  | .report b inst what => report cfg b inst what
  | .subscribeToInstance b inst => subscribeToInstance cfg b inst
  | .registerProcesses b worker regs => registerProcesses cfg b worker regs
  | .heartbeat b worker => heartbeat cfg b worker
  | .unregister b worker => unregister cfg b worker
  | .sweepRegistry => sweepRegistry cfg
  | .fetchJobs b keys => fetchJobs b keys
  | .fetchLoop b keys reclaim => fetchLoop cfg b keys reclaim
  | .moveTimers b => moveTimers cfg b
  | .close b => do
    ask (.close b)
    return .nothing
  | .expireMeta inst => do
    ask (.expireMeta inst)
    return .nothing
  | .expireInst inst => do
    ask (.expireInst inst)
    return .nothing

/-- The calls under way, and the server. -/
abbrev World (D B : Type) := Pool (Server B) (Call D) (Cmd B) Cmd.Reply (Except Failure (Answer D))

/-- An id that `Submit` draws is in use nowhere. -/
def admits (w : World D B) : Call D → Bool
  | .submit _ inst _ => w.threads.all fun t => t.key.inst ≠ some inst
  | _ => true

def system : System (Server B) (Call D) (Cmd B) Cmd.Reply Choice (Except Failure (Answer D)) where
  service := service B
  body := fun k => (body cfg k).run
  admits := admits

/-! ## A small system

One broker with one worker, and envelopes that are what they hold. -/

inductive Envelope (D : Type) where
  | job (j : Job D)
  | event (e : InstanceEvent D)
  | reg (r : ProcessRegistration D)
  | update (u : RegistryUpdate D)

/-- A codec on which nothing is lost. -/
def Codec.clear (D : Type) : Codec D (Envelope D) where
  encodeJob j := .ok (.job j)
  decodeJob
    | .job j => .ok j
    | _ => .error "no job"
  encodeEvent e := .ok (.event e)
  decodeEvent
    | .event e => .ok e
    | _ => .error "no event"
  encodeReg r := .ok (.reg r)
  decodeReg
    | .reg r => .ok r
    | _ => .error "no registration"
  encodeUpdate u := .ok (.update u)
  decodeJob_encode := fun j b h => by
    cases h
    obtain ⟨f, hf⟩ := (Wire.clear D).job_map j j rfl
    exact ⟨f, congrArg _ hf⟩
  decodeEvent_encode := fun e b h => by
    cases h
    obtain ⟨f, hf⟩ := (Wire.clear D).event_map e
    exact ⟨f, congrArg _ hf⟩

def sampleSystem : Config Unit (Envelope Unit) := ⟨.clear Unit, fun _ _ => .ok (), 90⟩

/-- The next steps of a call, where a scan comes across the one worker. -/
def goOn (i n : ℕ) : List (PoolAction (Call Unit) Choice) :=
  List.replicate n (.step i { Choice.plain with workers := ["worker"] } true)

/-- The worker registers, and `Submit` gets as far as to queue the job. -/
def sampleQueued : List (PoolAction (Call Unit) Choice) :=
  .call (.registerProcesses 0 "worker" [sampleReg]) :: goOn 0 6 ++
    .call (.submit 0 "i" ⟨sampleKey, "start", (), none⟩) :: goOn 1 10

end Redis

end Blkit
