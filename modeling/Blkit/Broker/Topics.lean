import Blkit.Broker.Message
import Blkit.Data.Chan
import Mathlib.Data.Finset.Basic
import Mathlib.Logic.Function.Basic

/-!
# Instance topics

A record for each instance the broker knows, and the subscribers.  A subscriber is known by
its number.  Its reader takes events from the channel at any time, also while the broker is
publishing; how many it takes before each attempt to send is the `Pace` of the call.

`submitted` and `published` of a record, `ending` of a subscriber and `ended` are kept for
what is said about them: the code does not have them.
-/

namespace Blkit

namespace Broker

variable {D : Type}

/-! ## Subscribers -/

/-- `inMemSub`. -/
structure Sub (D : Type) where
  instanceID : String
  ch : Chan (InstanceEvent D)
  dropped : Bool
  closed : Bool
  /-- what was published when the instance finished, if that is why the channel was closed -/
  ending : Option (List (InstanceEvent D))

/-- For each subscriber, how much its reader takes before a marker and before an event is sent. -/
abbrev Pace := ℕ → ℕ × ℕ

/-- The synthetic event that follows dropped ones. -/
def dropMarker (instanceID : String) (now : Int) : InstanceEvent D :=
  ⟨instanceID, none,
    .error ⟨errCodeBackpressureDrop, "subscriber buffer overflowed; events were dropped"⟩, now⟩

namespace Sub

variable (s : Sub D)

/-- Send one event if it fits. -/
def offer (evt : InstanceEvent D) (n : ℕ) : Sub D :=
  let (sent, ch) := (s.ch.read n).trySend evt
  { s with ch := ch, dropped := !sent }

/-- `send`. -/
def send (evt marker : InstanceEvent D) (pace : ℕ × ℕ) : Sub D :=
  if s.closed then s
  else if s.dropped then
    match (s.ch.read pace.1).trySend marker with
    | (true, ch) => { s with ch := ch, dropped := false }.offer evt pace.2
    | (false, ch) => { s with ch := ch }
  else s.offer evt pace.2

/-- `close`. -/
def close : Sub D := if s.closed then s else { s with closed := true, ch := s.ch.close }

end Sub

/-! ## Records -/

/-- `inMemInstance`. -/
structure Instance (D : Type) where
  key : ProcessKey
  correlationKey : Option String
  latestLifecycle : Option (InstanceEvent D)
  terminal : Option (InstanceEvent D)
  finished : Bool
  expiresAt : Int
  subs : List ℕ
  /-- the record was made by `Submit` -/
  submitted : Bool
  published : List (InstanceEvent D)

namespace Instance

/-- The record that is made for an id the broker does not know. -/
def blank : Instance D := ⟨.zero, none, none, none, false, 0, [], false, []⟩

variable (r : Instance D)

/-- The phase of the latest lifecycle event. -/
def phase : Option ProcessStatus := r.latestLifecycle.bind InstanceEvent.phase

/-- What `publishLocked` keeps of an event. -/
def retain (evt : InstanceEvent D) : Instance D :=
  let r' := { r with published := r.published ++ [evt] }
  match evt.body with
  | .lifecycle _ => { r' with latestLifecycle := some evt }
  | .result _ => { r' with terminal := some evt }
  | .error _ => if r.phase = some .failed then { r' with terminal := some evt } else r'
  | .inputRequest _ _ _ | .nodeCompleted _ _ _ => r'

/-- What a late subscriber is told. -/
def replay : List (InstanceEvent D) := r.latestLifecycle.toList ++ r.terminal.toList

end Instance

/-- How an instance ends. -/
inductive Outcome (D : Type) where
  | completed (result : D)
  | failed (e : InstanceError)
  | cancelled

/-- The phase it ends in. -/
def Outcome.phase : Outcome D → ProcessStatus
  | .completed _ => .completed
  | .failed _ => .failed
  | .cancelled => .cancelled

/-- The event that follows the lifecycle event. -/
def Outcome.extra : Outcome D → Option (EventBody D)
  | .completed result => some (.result result)
  | .failed e => some (.error e)
  | .cancelled => none

/-! ## Topics -/

@[ext]
structure Topics (D : Type) where
  insts : String → Option (Instance D)
  subs : List (Sub D)
  /-- the instances that have finished, also when their record was purged -/
  ended : Finset String

namespace Topics

def empty : Topics D := ⟨fun _ => none, [], ∅⟩

variable (t : Topics D)

/-- `recordLocked`. -/
def recordLocked (instanceID : String) : Instance D := (t.insts instanceID).getD .blank

/-- The event `publishLocked` publishes. -/
def stamp (wire : Wire D) (now : Int) (instanceID : String) (body : EventBody D) :
    InstanceEvent D :=
  wire.event ⟨instanceID, (t.recordLocked instanceID).correlationKey, body, now⟩

/-- `publishLocked`. -/
def publishLocked (wire : Wire D) (now : Int) (pace : Pace) (instanceID : String)
    (body : EventBody D) : Topics D :=
  let r := t.recordLocked instanceID
  let evt := t.stamp wire now instanceID body
  { t with
    insts := Function.update t.insts instanceID (some (r.retain evt))
    subs := t.subs.mapIdx fun i s =>
      if i ∈ r.subs then s.send evt (dropMarker instanceID now) (pace i) else s }

/-- The end of `finishLocked`: the record is finished, its subscribers are closed. -/
def endLocked (instanceID : String) (expiresAt : Int) (outcome : List (InstanceEvent D)) :
    Topics D :=
  let r := t.recordLocked instanceID
  { insts := Function.update t.insts instanceID
      (some { r with finished := true, expiresAt := expiresAt, subs := [] })
    subs :=
      t.subs.mapIdx fun i s => if i ∈ r.subs then { s.close with ending := some outcome } else s
    ended := insert instanceID t.ended }

/-- What `finishLocked` publishes. -/
def outcomeEvents (wire : Wire D) (now : Int) (instanceID : String) (o : Outcome D) :
    List (InstanceEvent D) :=
  t.stamp wire now instanceID (.lifecycle o.phase) ::
    (o.extra.map (t.stamp wire now instanceID)).toList

/-- `finishLocked`, as far as the topic is concerned. -/
def finishLocked (wire : Wire D) (retention now : Int) (pace pace' : Pace) (instanceID : String)
    (o : Outcome D) : Topics D :=
  if (t.recordLocked instanceID).finished then t
  else
    let t₁ := t.publishLocked wire now pace instanceID (.lifecycle o.phase)
    let t₂ := o.extra.elim t₁ (t₁.publishLocked wire now pace' instanceID)
    t₂.endLocked instanceID (now + retention) (t.outcomeEvents wire now instanceID o)

/-- The record `Submit` makes. -/
def submit (instanceID : String) (key : ProcessKey) (correlationKey : Option String) : Topics D :=
  { t with
    insts := Function.update t.insts instanceID (some
      { Instance.blank with
        key := key, correlationKey := correlationKey, submitted := true }) }

/-- The first event for a subscriber to an id the broker does not know. -/
def notFound (instanceID : String) (now : Int) : InstanceEvent D :=
  ⟨instanceID, none, .error ⟨errCodeInstanceNotFound, "no events visible for this instance"⟩, now⟩

/-- `SubscribeToInstance`; the new subscriber's number is the number of subscribers before. -/
def subscribeToInstance (cap : ℕ) (now : Int) (instanceID : String) : Topics D :=
  match t.insts instanceID with
  | none =>
    { t with
      insts :=
        Function.update t.insts instanceID (some { Instance.blank with subs := [t.subs.length] })
      subs :=
        t.subs ++ [⟨instanceID, { Chan.make cap with buffer := [notFound instanceID now] },
          false, false, none⟩] }
  | some r =>
    let ch := { Chan.make cap with buffer := r.replay }
    if r.finished then { t with subs := t.subs ++ [⟨instanceID, ch.close, false, true, none⟩] }
    else
      { t with
        insts :=
          Function.update t.insts instanceID (some { r with subs := r.subs ++ [t.subs.length] })
        subs := t.subs ++ [⟨instanceID, ch, false, false, none⟩] }

/-- Subscriber `i` is attached to its record. -/
def attached (i : ℕ) (s : Sub D) : Bool := (t.insts s.instanceID).any fun r => i ∈ r.subs

/-- The context of a subscriber ends. -/
def unsubscribe (i : ℕ) : Topics D :=
  match t.subs[i]? with
  | none => t
  | some s =>
    if t.attached i s then
      let r := t.recordLocked s.instanceID
      { t with
        insts := Function.update t.insts s.instanceID (some { r with subs := r.subs.erase i })
        subs := t.subs.set i s.close }
    else t

/-- The reader of a subscriber takes events. -/
def read (i n : ℕ) : Topics D :=
  { t with subs := t.subs.modify i fun s => { s with ch := s.ch.read n } }

/-- What `sweep` does to the records. -/
def sweep (now : Int) : Topics D :=
  { t with
    insts := fun id => (t.insts id).filter fun r =>
      !(r.finished && decide (r.expiresAt < now) && r.subs.isEmpty) }

/-- What `Close` does to the subscribers. -/
def close : Topics D :=
  { t with
    insts := fun id => (t.insts id).map fun r => { r with subs := [] }
    subs := t.subs.mapIdx fun i s => if t.attached i s then s.close else s }

end Topics

end Broker

end Blkit
