import Blkit.Broker.Topics
import Blkit.Control.Attempt

/-!
# Instance events over a topic

The broker keeps a record of the last events of each instance in a table, and publishes each
event on a topic with a number that the table allots.  Every subscriber has a queue of its own
behind the topic, and a pump that hands on what comes out of it.

The calls are programs that issue commands to the services; what the broker keeps in memory is
part of the same state, and looking there cannot fail.

## What is taken from the services

* DynamoDB's `UpdateItem` is carried out at once: it makes the item if there is none, adds to
  the number, sets the attributes it names and returns the new number.
* `GetItem`, which is consistent here, returns the item as the last update left it.
* A message that SNS accepts is on the topic; it gets to every queue, in any order and perhaps
  more than once (`Served`).

Every command to a service may fail before or after it is carried out (`Service`).
-/

namespace Blkit

namespace Aws

open Broker Prog

variable {D B : Type}

/-- How events are put into envelopes and read back. -/
structure EventCodec (D B : Type) where
  encode : InstanceEvent D → Except String B
  decode : B → Except String (InstanceEvent D)
  decode_encode : ∀ e b, encode e = .ok b → ∃ f : D → D, decode b = .ok (e.map f)

/-! ## The services -/

/-- `LastEventRecord`, without the process key. -/
structure LastEvent (B : Type) where
  corr : Option String
  seq : ℕ
  latest : Option B
  terminal : Option B
  finished : Bool

/-- What is published: an envelope with attributes. -/
structure Message (B : Type) where
  inst : String
  seq : ℕ
  final : Bool
  body : B

structure Cloud (B : Type) where
  closed : Bool
  records : String → Option (LastEvent B)
  /-- all that was ever published -/
  topic : List (Message B)
  inFlight : String → List ℕ
  deleted : List ℕ

inductive Cmd (B : Type) where
  | alive
  | checkOpen
  | now
  | takeReceipts (inst : String)
  | getLastEvent (inst : String)
  | updateLastEvent (inst : String) (latest terminal : Option B) (finish : Bool)
  | publish (m : Message B)
  | deleteMessage (receipt : ℕ)

@[reducible] def Cmd.Reply : Cmd B → Type
  | .alive | .checkOpen => Bool
  | .now => Int
  | .takeReceipts _ => List ℕ
  | .getLastEvent _ => Option (LastEvent B)
  | .updateLastEvent _ _ _ _ => ℕ
  | .publish _ | .deleteMessage _ => Unit

/-- A command to a service; the others are done in the broker. -/
def Cmd.remote : Cmd B → Bool
  | .getLastEvent _ | .updateLastEvent _ _ _ _ | .publish _ | .deleteMessage _ => true
  | _ => false

namespace Cloud

variable (s : Cloud B)

/-- The record that an update starts from. -/
def record (inst : String) : LastEvent B := (s.records inst).getD ⟨none, 0, none, none, false⟩

/-- `UpdateLastEvent`. -/
def updateLastEvent (inst : String) (latest terminal : Option B) (finish : Bool) : Cloud B :=
  let r := s.record inst
  { s with records := Function.update s.records inst (some
      { r with seq := r.seq + 1, latest := latest.or r.latest, terminal := terminal.or r.terminal,
               finished := r.finished || finish }) }

/-- What a command does; the choice is whether the caller has given up, and the time. -/
def run (c : Cmd B) (h : Bool × Int) : Option (Cloud B × c.Reply) :=
  match c with
  | .alive => some (s, h.1)
  | .checkOpen => some (s, !s.closed)
  | .now => some (s, h.2)
  | .takeReceipts inst =>
    some ({ s with inFlight := Function.update s.inFlight inst [] }, s.inFlight inst)
  | .getLastEvent inst => some (s, s.records inst)
  | .updateLastEvent inst latest terminal finish =>
    some (s.updateLastEvent inst latest terminal finish, (s.record inst).seq + 1)
  | .publish m => some ({ s with topic := s.topic ++ [m] }, ())
  | .deleteMessage receipt => some ({ s with deleted := s.deleted ++ [receipt] }, ())

end Cloud

def service (B : Type) : Service (Cloud B) (Cmd B) Cmd.Reply (Bool × Int) where
  run := Cloud.run
  fallible := Cmd.remote

/-! ## Reports -/

/-- Why a call returns an error. -/
inductive Failure where
  | context
  | brokerClosed
  | service
  | encode (msg : String)
deriving DecidableEq, Repr

abbrev Act (B : Type) := Try (Cmd B) Cmd.Reply Failure

def ask (c : Cmd B) : Act B c.Reply := must .service c

/-- `checkOpen`. -/
def checkOpen : Act B Unit := do
  check .context (← ask .alive)
  check .brokerClosed (← ask .checkOpen)

/-- `eventDisposition`. -/
structure Disposition where
  lifecycle : Bool
  terminal : Bool
  final : Bool

variable (codec : EventCodec D B)

/-- `publishEvent`, behind the look at the record. -/
def publishStamped (inst : String) (corr : Option String) (body : EventBody D) (d : Disposition) :
    Act B Unit := do
  let now ← ask .now
  let env ← orThrow .encode (codec.encode ⟨inst, corr, body, now⟩)
  let seq ← ask (.updateLastEvent inst (if d.lifecycle then some env else none)
    (if d.terminal then some env else none) d.final)
  ask (.publish ⟨inst, seq, d.final, env⟩)

/-- `publishEvent`. -/
def publishEvent (inst : String) (body : EventBody D) (d : Disposition) : Act B Unit := do
  let last ← ask (.getLastEvent inst)
  if last.any LastEvent.finished then return ()
  else publishStamped codec inst (last.bind LastEvent.corr) body d

/-- The loop of `settleInstance`. -/
def deleteAll : List ℕ → Act B Unit
  | [] => pure ()
  | receipt :: rest => do
    let _ ← Prog.attempt Failure (.deleteMessage receipt)
    deleteAll rest

/-- `settleInstance`. -/
def settleInstance (inst : String) : Act B Unit := do
  deleteAll (← ask (.takeReceipts inst))

/-- The events that end an instance: one, or one and the final one. -/
def publishEnd (inst : String) (o : Outcome D) : Act B Unit :=
  match o.extra with
  | none => publishEvent codec inst (.lifecycle o.phase) ⟨true, false, true⟩
  | some body => do
    publishEvent codec inst (.lifecycle o.phase) ⟨true, false, false⟩
    publishEvent codec inst body ⟨false, true, true⟩

/-- The reports that end an instance. -/
def reportEnd (inst : String) (o : Outcome D) : Act B Unit := do
  checkOpen
  publishEnd codec inst o
  settleInstance inst

/-- `ReportCompleted`. -/
def reportCompleted (inst : String) (result : D) : Act B Unit :=
  reportEnd codec inst (.completed result)

/-- `ReportFailed`. -/
def reportFailed (inst : String) (e : InstanceError) : Act B Unit :=
  reportEnd codec inst (.failed e)

/-- `ReportCancelled`. -/
def reportCancelled (inst : String) : Act B Unit := reportEnd codec inst .cancelled

/-! ## Subscribers -/

/-- The variables of `pumpInstanceEvents`; the pump runs as long as its channel is open. -/
structure Pump (D : Type) where
  replayedSeq : ℕ
  seen : List ℕ
  dropped : Bool
  chan : Chan (InstanceEvent D)

namespace Pump

variable (p : Pump D)

/-- The end of `deliver`. -/
def send (evt : InstanceEvent D) : Pump D :=
  let (sent, c) := p.chan.trySend evt
  { p with chan := c, dropped := !sent }

/-- `deliver`. -/
def deliver (now : Int) (evt : InstanceEvent D) : Pump D :=
  if p.dropped then
    let (sent, c) := p.chan.trySend (dropMarker evt.instanceID now)
    if sent then { p with chan := c, dropped := false }.send evt else { p with chan := c }
  else p.send evt

/-- Already covered by the replay, or delivered before. -/
def Covers (seq : ℕ) : Prop := 0 < seq ∧ (seq ≤ p.replayedSeq ∨ seq ∈ p.seen)

instance (seq : ℕ) : Decidable (p.Covers seq) := inferInstanceAs (Decidable (_ ∧ _))

/-- An event that could be read. -/
def accept (now : Int) (m : Message B) (evt : InstanceEvent D) : Pump D :=
  let p' := { p with seen := if 0 < m.seq then m.seq :: p.seen else p.seen }.deliver now evt
  if m.final then { p' with chan := p'.chan.close } else p'

/-- A message comes out of the queue. -/
def receive (codec : EventCodec D B) (now : Int) (m : Message B) : Pump D :=
  if p.chan.closed then p
  else match codec.decode m.body with
    | .error msg => p.deliver now ⟨m.inst, none, .error ⟨"DECRYPTION_ERROR", msg⟩, now⟩
    | .ok evt => if p.Covers m.seq then p else p.accept now m evt

end Pump

end Aws

end Blkit
