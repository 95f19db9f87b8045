import Blkit.Broker.Registry
import Blkit.Control.Pool

/-!
# The server and the brokers' own memory

What the Redis broker keeps on the server: a stream of jobs for each process key with one
consumer group, a stream of events and a hash for each instance, a hash for each worker, the
sorted set of resume timers and the feed of registry updates.  Each command, and each Lua
script, is one step.  What a broker keeps in its own memory under its lock is part of the
same state; looking there is a command that cannot fail.

Where the server, or the time, is free to choose, the choice is given: how far a stream is
trimmed beyond what it must keep, which workers a scan comes across, which pending entries
have been idle long enough.  A key that was told to expire may do so at any later time.

## What is taken from the server

The commands do what the documentation of Redis says of them:

* a command, and a script as a whole, is carried out at once, whatever other clients do;
* `XADD` appends an entry with an id above those before it (here above those of all streams),
  and with `MAXLEN ~ n` may remove the oldest entries as long as `n` are left;
* `XGROUP CREATE … 0 MKSTREAM` makes a group that has been delivered nothing, and the stream
  if there is none;
* `XREADGROUP … >` delivers up to `COUNT` entries after the last that was delivered, and makes
  them pending;
* `XAUTOCLAIM` hands out pending entries that have been idle for long enough, and forgets those
  that are no longer on the stream; `XACK` takes an entry off the list of pending ones, and
  `XDEL` off the stream;
* `HSET` sets fields and leaves the others, `HSETNX` sets a field that is not there, and both
  make the hash;
* `PEXPIRE` has the key removed some time later;
* `ZADD` sets the score of a member, and members are listed by score, then by name.

Every command may fail before or after it is carried out (`Service`).

## What is kept besides

`history` has all that was ever appended to a stream of events, and `received` the entries
that were handed to a worker; they are kept for what is said about them.
-/

namespace Blkit

namespace Redis

open Broker

/-- The kinds of a job, as far as entries are told apart. -/
inductive JobKind where
  | start | respondToInput | cancel | terminate | resume
deriving DecidableEq, Repr

/-- The kinds of an event. -/
inductive EventKind where
  | lifecycle | input | node | error | result
deriving DecidableEq, Repr

/-- An entry of a stream of jobs: what it is about in the clear, and an envelope. -/
structure JobEntry (B : Type) where
  id : ℕ
  kind : JobKind
  inst : String
  env : B
deriving DecidableEq, Repr

/-- A consumer group: the last entry that was delivered, and those that are not acknowledged. -/
structure Group where
  last : ℕ
  pending : List ℕ
deriving DecidableEq, Repr

structure JobStream (B : Type) where
  entries : List (JobEntry B)
  group : Option Group
deriving DecidableEq, Repr

structure EventEntry (B : Type) where
  id : ℕ
  kind : EventKind
  phase : Option ProcessStatus
  env : B
deriving DecidableEq, Repr

structure EventStream (B : Type) where
  entries : List (EventEntry B)
  /-- was told to expire -/
  expiring : Bool
deriving DecidableEq, Repr

/-- The routing metadata of an instance.  The key is missing when the hash was made by
`finish` for an instance that had none. -/
structure Meta where
  key : Option String
  corr : Option String
  finished : Bool
  expiring : Bool
deriving DecidableEq, Repr

/-- The hash of a worker: its registrations and when each key was first registered. -/
structure Regs (B : Type) where
  deadline : Int
  hb : Int
  regs : List (String × B)
  firsts : List (String × Int)
deriving DecidableEq, Repr

/-- What a broker keeps in its own memory. -/
structure Local where
  closed : Bool
  /-- streams whose group exists -/
  groups : List String
  /-- delivered, unsettled entries of each instance -/
  deliveries : String → List (String × ℕ)

structure Server (B : Type) where
  lastID : ℕ
  jobs : String → JobStream B
  insts : String → Option (EventStream B)
  metas : String → Option Meta
  timers : List (String × Int)
  workers : List (String × Regs B)
  feed : List B
  locals : ℕ → Local
  history : String → List (EventEntry B)
  received : List (String × ℕ)

inductive Cmd (B : Type) where
  -- the broker's own memory and its callers
  | alive
  | checkOpen (b : ℕ)
  | close (b : ℕ)
  | now
  | hasGroup (b : ℕ) (stream : String)
  | noteGroup (b : ℕ) (stream : String)
  | noteDelivery (b : ℕ) (inst stream : String) (entry : ℕ)
  | takeDeliveries (b : ℕ) (inst : String)
  | hand (stream : String) (entry : ℕ)
  -- workers and the feed
  | scanRegs
  | hgetallReg (worker : String)
  | setReg (worker : String) (regs : Regs B)
  | heartbeat (worker : String) (deadline hb : Int)
  | unregister (worker : String)
  | sweep (worker : String) (now : Int)
  | publish (env : B)
  -- the hash of an instance
  | hsetMeta (inst key : String) (corr : Option String)
  | hgetallMeta (inst : String)
  | existsMeta (inst : String)
  | hgetCorr (inst : String)
  | hsetnxFinished (inst : String)
  | pexpireMeta (inst : String)
  | expireMeta (inst : String)
  -- jobs
  | xgroupCreate (stream : String)
  | xaddJob (stream : String) (kind : JobKind) (inst : String) (env : B)
  | xreadgroup (streams : List String)
  | xautoclaim (stream : String)
  | xack (stream : String) (entry : ℕ)
  | xdel (stream : String) (entry : ℕ)
  | cancelQueued (stream inst : String)
  -- events
  | xaddInst (inst : String) (kind : EventKind) (phase : Option ProcessStatus) (env : B)
  | xrangeInst (inst : String)
  | pexpireInst (inst : String)
  | expireInst (inst : String)
  -- timers
  | zadd (inst : String) (score : Int)
  | zrem (inst : String)
  | dueTimers (now : Int)

namespace Cmd

variable {B : Type}

@[reducible] def Reply : Cmd B → Type
  | .checkOpen _ => Option Refusal
  | .now => Int
  | .alive | .hasGroup _ _ | .hand _ _ | .heartbeat _ _ _ | .existsMeta _ | .hsetnxFinished
      _ | .cancelQueued _ _ => Bool
  | .takeDeliveries _ _ => List (String × ℕ)
  | .scanRegs | .dueTimers _ => List String
  | .hgetallReg _ | .unregister _ | .sweep _ _ => Option (Regs B)
  | .hgetallMeta _ => Option Meta
  | .hgetCorr _ => Option String
  | .xreadgroup _ => List (String × JobEntry B)
  | .xautoclaim _ => List (JobEntry B)
  | .xrangeInst _ => List (EventEntry B)
  | _ => Unit

/-- A command to the server; the others are done in the broker, or by the server itself. -/
def remote : Cmd B → Bool
  | .alive | .checkOpen _ | .close _ | .now | .hasGroup _ _ | .noteGroup _ _ | .noteDelivery _ _ _ _
  | .takeDeliveries _ _ | .hand _ _ | .expireMeta _ | .expireInst _ => false
  | _ => true

end Cmd

/-- What is free to choose. -/
structure Choice where
  cancelled : Bool
  now : Int
  workers : List String
  claim : List ℕ
  trim : ℕ
  handed : Bool

/-- The choice that is made where nothing particular is. -/
def Choice.plain : Choice := ⟨false, 0, [], [], 0, true⟩

def Local.empty : Local := ⟨false, [], fun _ => []⟩

namespace Server

variable {B : Type}

def empty : Server B :=
  ⟨0, fun _ => ⟨[], none⟩, fun _ => none, fun _ => none, [], [], [],
    fun _ => .empty, fun _ => [], []⟩

variable (s : Server B)

def setLocal (b : ℕ) (l : Local) : Server B := { s with locals := Function.update s.locals b l }

def setJobs (stream : String) (js : JobStream B) : Server B :=
  { s with jobs := Function.update s.jobs stream js }

def setMeta (inst : String) (m : Meta) : Server B :=
  { s with metas := Function.update s.metas inst (some m) }

/-- A worker's hash is written, or deleted. -/
def setWorker (worker : String) (r : Option (Regs B)) : Server B :=
  { s with workers := s.workers.filter (fun x => x.1 ≠ worker) ++
    (r.map fun r => (worker, r)).toList }

def worker (worker : String) : Option (Regs B) := s.workers.lookup worker

/-! ## Commands that are more than a lookup -/

/-- How many entries a stream of events must keep. -/
def instStreamMaxLen : ℕ := 256

/-- `XADD` to a stream of events, with `MAXLEN ~ 256`. -/
def xaddInst (inst : String) (kind : EventKind) (phase : Option ProcessStatus)
    (env : B) (trim : ℕ) : Server B :=
  let e : EventEntry B := ⟨s.lastID + 1, kind, phase, env⟩
  let old := (s.insts inst).getD ⟨[], false⟩
  { s with
    lastID := s.lastID + 1
    insts :=
      Function.update s.insts inst (some { old with entries := (old.entries ++ [e]).drop trim })
    history := Function.update s.history inst (s.history inst ++ [e]) }

/-- What may be trimmed off. -/
def MayTrim (inst : String) (trim : ℕ) : Prop :=
  trim = 0 ∨ trim + instStreamMaxLen ≤ ((s.insts inst).getD ⟨[], false⟩).entries.length + 1

instance (inst : String) (trim : ℕ) : Decidable (s.MayTrim inst trim) :=
  inferInstanceAs (Decidable (_ ∨ _))

def xaddJob (stream : String) (kind : JobKind) (inst : String) (env : B) : Server B :=
  let js := s.jobs stream
  { s.setJobs stream { js with entries := js.entries ++ [⟨s.lastID + 1, kind, inst, env⟩] }
    with lastID := s.lastID + 1 }

/-- `XGROUP CREATE … 0 MKSTREAM`; that the group exists already is no error to the broker. -/
def xgroupCreate (stream : String) : Server B :=
  let js := s.jobs stream
  s.setJobs stream { js with group := some (js.group.getD ⟨0, []⟩) }

/-- `XREADGROUP … COUNT 16 … >` on one stream. -/
def readNew (stream : String) : List (JobEntry B) × Server B :=
  match (s.jobs stream).group with
  | none => ([], s)
  | some g =>
    let new := ((s.jobs stream).entries.filter fun e => g.last < e.id).take 16
    (new, s.setJobs stream { s.jobs stream with
      group :=
        some ⟨(new.getLast?.map JobEntry.id).getD g.last, g.pending ++ new.map JobEntry.id⟩ })

def xreadgroup (s : Server B) : List String → List (String × JobEntry B) × Server B
  | [] => ([], s)
  | stream :: rest =>
    let (new, s₁) := s.readNew stream
    let (more, s₂) := xreadgroup s₁ rest
    (new.map (fun e => (stream, e)) ++ more, s₂)

/-- Which pending entries may be claimed at a time. -/
def MayClaim (stream : String) (claim : List ℕ) : Prop :=
  claim.length ≤ 16 ∧ claim.Nodup ∧ ∃ g, (s.jobs stream).group = some g ∧ ∀ e ∈ claim, e ∈ g.pending

instance (stream : String) (claim : List ℕ) : Decidable (s.MayClaim stream claim) :=
  have : Decidable (∃ g, (s.jobs stream).group = some g ∧ ∀ e ∈ claim, e ∈ g.pending) :=
    match h : (s.jobs stream).group with
    | none => .isFalse fun ⟨g, hg, _⟩ => by cases hg
    | some g =>
      if hall : ∀ e ∈ claim, e ∈ g.pending then .isTrue ⟨g, rfl, hall⟩
      else .isFalse fun ⟨g', hg', hall'⟩ => hall (by cases hg'; exact hall')
  inferInstanceAs (Decidable (_ ∧ _ ∧ _))

/-- `XAUTOCLAIM`; claimed entries that are no longer on the stream are forgotten. -/
def xautoclaim (stream : String) (claim : List ℕ) : List (JobEntry B) × Server B :=
  let js := s.jobs stream
  let found := js.entries.filter fun e => e.id ∈ claim
  (found, s.setJobs stream { js with
    group := js.group.map fun g => { g with
      pending := g.pending.filter fun e => e ∉ claim ∨ e ∈ js.entries.map JobEntry.id } })

def xack (stream : String) (entry : ℕ) : Server B :=
  let js := s.jobs stream
  s.setJobs stream { js with group := js.group.map fun g =>
    { g with pending := g.pending.filter (· ≠ entry) } }

def xdel (stream : String) (entry : ℕ) : Server B :=
  let js := s.jobs stream
  s.setJobs stream { js with entries := js.entries.filter fun e => e.id ≠ entry }

/-- `cancelQueuedScript`: the first start job of the instance is removed unless it is pending. -/
def cancelQueued (stream inst : String) : Bool × Server B :=
  match (s.jobs stream).entries.find? fun e => e.kind = .start && e.inst = inst,
    (s.jobs stream).group with
  | some e, some g => if e.id ∈ g.pending then (false, s) else (true, s.xdel stream e.id)
  | _, _ => (false, s)

/-- `HSETNX … finished 1`. -/
def hsetnxFinished (inst : String) : Bool × Server B :=
  match s.metas inst with
  | none => (true, s.setMeta inst ⟨none, none, true, false⟩)
  | some m => if m.finished then (false, s) else (true, s.setMeta inst { m with finished := true })

/-- `HSET` of the metadata; other fields stay. -/
def hsetMeta (inst key : String) (corr : Option String) : Server B :=
  let m := (s.metas inst).getD ⟨none, none, false, false⟩
  s.setMeta inst { m with key := some key, corr := corr.or m.corr }

/-- The members of the sorted set that are due, in its order. -/
def dueList (now : Int) : List (String × Int) :=
  ((s.timers.filter fun x => x.2 ≤ now).mergeSort fun x y => x.2 < y.2 ||
    (x.2 == y.2 && x.1 ≤ y.1)).take 16

/-- `dueTimersScript`. -/
def dueTimers (now : Int) : List String × Server B :=
  let due := (s.dueList now).map Prod.fst
  (due, { s with timers := s.timers.filter fun x => x.1 ∉ due })

/-- `sweepScript`. -/
def sweep (worker : String) (now : Int) : Option (Regs B) × Server B :=
  match s.worker worker with
  | none => (none, s)
  | some r => if now < r.deadline then (none, s) else (some r, s.setWorker worker none)

/-- Commands whose effect does not depend on a choice. -/
def settled : (c : Cmd B) → Option (Server B × c.Reply)
  | .checkOpen b => some (s, if (s.locals b).closed then some .brokerClosed else none)
  | .close b => some (s.setLocal b { s.locals b with closed := true }, ())
  | .hasGroup b stream => some (s, decide (stream ∈ (s.locals b).groups))
  | .noteGroup b stream =>
    some (s.setLocal b { s.locals b with groups := stream :: (s.locals b).groups }, ())
  | .noteDelivery b inst stream entry =>
    let l := s.locals b
    some (s.setLocal b { l with
      deliveries :=
        Function.update l.deliveries inst (l.deliveries inst ++ [(stream, entry)]) }, ())
  | .takeDeliveries b inst =>
    let l := s.locals b
    some (s.setLocal b { l with deliveries := Function.update l.deliveries inst [] },
      l.deliveries inst)
  | .hgetallReg worker => some (s, s.worker worker)
  | .setReg worker regs => some (s.setWorker worker (some regs), ())
  | .heartbeat worker deadline hb =>
    match s.worker worker with
    | none => some (s, false)
    | some r => some (s.setWorker worker (some { r with deadline := deadline, hb := hb }), true)
  | .unregister worker => some (s.setWorker worker none, s.worker worker)
  | .sweep worker now => some ((s.sweep worker now).2, (s.sweep worker now).1)
  | .publish env => some ({ s with feed := s.feed ++ [env] }, ())
  | .hsetMeta inst key corr => some (s.hsetMeta inst key corr, ())
  | .hgetallMeta inst => some (s, s.metas inst)
  | .existsMeta inst => some (s, (s.metas inst).isSome)
  | .hgetCorr inst => some (s, (s.metas inst).bind Meta.corr)
  | .hsetnxFinished inst => some ((s.hsetnxFinished inst).2, (s.hsetnxFinished inst).1)
  | .pexpireMeta inst =>
    some ({ s with
      metas := Function.update s.metas inst
        ((s.metas inst).map fun m => { m with expiring := true }) }, ())
  | .expireMeta inst =>
    if (s.metas inst).any Meta.expiring then
      some ({ s with metas := Function.update s.metas inst none }, ()) else none
  | .xgroupCreate stream => some (s.xgroupCreate stream, ())
  | .xaddJob stream kind inst env => some (s.xaddJob stream kind inst env, ())
  | .xreadgroup streams => some ((s.xreadgroup streams).2, (s.xreadgroup streams).1)
  | .xack stream entry => some (s.xack stream entry, ())
  | .xdel stream entry => some (s.xdel stream entry, ())
  | .cancelQueued stream inst =>
    some ((s.cancelQueued stream inst).2, (s.cancelQueued stream inst).1)
  | .xrangeInst inst => some (s, ((s.insts inst).map EventStream.entries).getD [])
  | .pexpireInst inst =>
    some ({ s with
      insts := Function.update s.insts inst
        ((s.insts inst).map fun t => { t with expiring := true }) }, ())
  | .expireInst inst =>
    if (s.insts inst).any EventStream.expiring then
      some ({ s with insts := Function.update s.insts inst none }, ()) else none
  | .zadd inst score =>
    some ({ s with timers := s.timers.filter (fun x => x.1 ≠ inst) ++ [(inst, score)] }, ())
  | .zrem inst => some ({ s with timers := s.timers.filter fun x => x.1 ≠ inst }, ())
  | .dueTimers now => some ((s.dueTimers now).2, (s.dueTimers now).1)
  | _ => none

/-- What a command does. -/
def run (c : Cmd B) (h : Choice) : Option (Server B × c.Reply) :=
  match c with
  | .alive => some (s, !h.cancelled)
  | .now => some (s, h.now)
  | .hand stream entry =>
    some (if h.handed then { s with received := s.received ++ [(stream, entry)] } else s, h.handed)
  | .scanRegs => if h.workers.all fun x => (s.worker x).isSome then some (s, h.workers) else none
  | .xautoclaim stream =>
    if s.MayClaim stream h.claim then some ((s.xautoclaim stream h.claim).2,
      (s.xautoclaim stream h.claim).1) else none
  | .xaddInst inst kind phase env =>
    if s.MayTrim inst h.trim then some (s.xaddInst inst kind phase env h.trim, ()) else none
  | c => s.settled c

end Server

/-- The server as a service. -/
def service (B : Type) : Service (Server B) (Cmd B) Cmd.Reply Choice where
  run := Server.run
  fallible := Cmd.remote

end Redis

end Blkit
