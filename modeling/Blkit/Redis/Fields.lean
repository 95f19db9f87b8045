import Blkit.Redis.Server

/-!
# What commands leave alone

The commands fall into areas.  Each changes some fields of the server only; all others are left
alone.
-/

namespace Blkit

namespace Redis

inductive Area where
  /-- the broker's memory of groups, the clock, the caller -/
  | own
  /-- delivered entries, and the hand-over to workers -/
  | delivery
  /-- the hashes of workers -/
  | worker
  | feed
  /-- looking at an instance -/
  | look
  | metadata
  | flag
  | expiry
  | group
  | queue
  | take
  | settle
  | unqueue
  | event
  | timer
deriving DecidableEq

def Cmd.area {B : Type} : Cmd B → Area
  | .alive | .checkOpen _ | .close _ | .now | .hasGroup _ _ | .noteGroup _ _ => .own
  | .noteDelivery _ _ _ _ | .takeDeliveries _ _ | .hand _ _ => .delivery
  | .scanRegs | .hgetallReg _ | .setReg _ _ | .heartbeat _ _
      _ | .unregister _ | .sweep _ _ => .worker
  | .publish _ => .feed
  | .hgetallMeta _ | .existsMeta _ | .hgetCorr _ | .xrangeInst _ => .look
  | .hsetMeta _ _ _ => .metadata
  | .hsetnxFinished _ => .flag
  | .pexpireMeta _ | .expireMeta _ | .pexpireInst _ | .expireInst _ => .expiry
  | .xgroupCreate _ => .group
  | .xaddJob _ _ _ _ => .queue
  | .xreadgroup _ | .xautoclaim _ => .take
  | .xack _ _ | .xdel _ _ => .settle
  | .cancelQueued _ _ => .unqueue
  | .xaddInst _ _ _ _ => .event
  | .zadd _ _ | .zrem _ | .dueTimers _ => .timer

/-- The fields of a server. -/
inductive Field where
  | lastID | jobs | insts | metas | timers | workers | feed | locals | history | received
deriving DecidableEq

/-- The fields that the commands of an area may change. -/
def Area.fields : Area → List Field
  | .own => [.locals]
  | .delivery => [.locals, .received]
  | .worker => [.workers]
  | .feed => [.feed]
  | .look => []
  | .metadata | .flag => [.metas]
  | .expiry => [.metas, .insts]
  | .group | .take | .settle | .unqueue => [.jobs]
  | .queue => [.jobs, .lastID]
  | .event => [.insts, .history, .lastID]
  | .timer => [.timers]

namespace Server

variable {B : Type}

/-- Two servers have the same field. -/
def Agree (s s' : Server B) : Field → Prop
  | .lastID => s'.lastID = s.lastID
  | .jobs => s'.jobs = s.jobs
  | .insts => s'.insts = s.insts
  | .metas => s'.metas = s.metas
  | .timers => s'.timers = s.timers
  | .workers => s'.workers = s.workers
  | .feed => s'.feed = s.feed
  | .locals => s'.locals = s.locals
  | .history => s'.history = s.history
  | .received => s'.received = s.received

variable {s s' s'' : Server B} {f : Field} {c : Cmd B}

lemma Agree.refl : s.Agree s f := by cases f <;> rfl

lemma Agree.trans (h : s.Agree s' f) (h' : s'.Agree s'' f) : s.Agree s'' f := by
  cases f <;> exact Eq.trans h' h

variable {stream : String}

lemma agree_setJobs {js : JobStream B} (hf : [Field.jobs].contains f = false) :
    s.Agree (s.setJobs stream js) f := by
  cases f with
  | jobs => cases hf
  | _ => rfl

variable {inst : String}

lemma agree_setMeta {m : Meta} (hf : [Field.metas].contains f = false) :
    s.Agree (s.setMeta inst m) f := by
  cases f with
  | metas => cases hf
  | _ => rfl

variable {worker : String}

lemma agree_setWorker {r : Option (Regs B)} (hf : [Field.workers].contains f = false) :
    s.Agree (s.setWorker worker r) f := by
  cases f with
  | workers => cases hf
  | _ => rfl

lemma agree_readNew (hf : [Field.jobs].contains f = false) : s.Agree (s.readNew stream).2 f := by
  rw [readNew]
  split
  · exact .refl
  · exact agree_setJobs hf

lemma agree_xreadgroup {streams : List String} (hf : [Field.jobs].contains f = false) :
    s.Agree (s.xreadgroup streams).2 f := by
  induction streams generalizing s with
  | nil => exact .refl
  | cons stream rest ih => exact (agree_readNew hf).trans ih

lemma agree_hsetnxFinished (hf : [Field.metas].contains f = false) :
    s.Agree (s.hsetnxFinished inst).2 f := by
  rw [hsetnxFinished]
  split
  · exact agree_setMeta hf
  · split
    · exact .refl
    · exact agree_setMeta hf

/-- A command changes no fields but those of its area. -/
lemma agree_run {ch : Choice} {r : c.Reply} (hf : c.area.fields.contains f = false)
    (h : s.run c ch = some (s', r)) : s.Agree s' f := by
  cases c with
  | hand stream entry =>
    cases h
    split
    · cases f with
      | received => cases hf
      | _ => rfl
    · exact .refl
  | scanRegs =>
    obtain ⟨-, h⟩ := Option.ite_none_right_eq_some.1 h
    cases h
    exact .refl
  | heartbeat worker deadline hb =>
    have h : s.settled (.heartbeat worker deadline hb) = some (s', r) := h
    rw [settled] at h
    split at h
    · cases h
      exact .refl
    · cases h
      exact agree_setWorker hf
  | sweep worker now =>
    cases h
    rw [Server.sweep]
    split
    · exact .refl
    · split
      · exact .refl
      · exact agree_setWorker hf
  | hsetnxFinished inst =>
    cases h
    exact agree_hsetnxFinished hf
  | expireMeta inst =>
    obtain ⟨-, h⟩ := Option.ite_none_right_eq_some.1 h
    cases h
    cases f with
    | metas => cases hf
    | _ => rfl
  | xreadgroup streams =>
    cases h
    exact agree_xreadgroup hf
  | xautoclaim stream =>
    obtain ⟨-, h⟩ := Option.ite_none_right_eq_some.1 h
    cases h
    exact agree_setJobs hf
  | cancelQueued stream inst =>
    cases h
    rw [Server.cancelQueued]
    split
    · split
      · exact .refl
      · exact agree_setJobs hf
    · exact .refl
  | xaddInst inst kind phase env =>
    obtain ⟨-, h⟩ := Option.ite_none_right_eq_some.1 h
    cases h
    cases f with
    | insts | history | lastID => cases hf
    | _ => rfl
  | expireInst inst =>
    obtain ⟨-, h⟩ := Option.ite_none_right_eq_some.1 h
    cases h
    cases f with
    | insts => cases hf
    | _ => rfl
  | _ =>
    cases h
    cases f <;> first | rfl | cases hf

end Server

end Redis

end Blkit
