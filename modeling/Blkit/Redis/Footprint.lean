import Blkit.Control.Attempt
import Blkit.Redis.Calls
import Blkit.Redis.Fields

/-!
# What calls touch

For each call, and each part of one, the areas its commands
are in; a protocol that is about other areas does not notice it (`Inside.unnoticed`).
-/

namespace Blkit

namespace Redis

open Broker Prog

variable {D B : Type} {cfg : Config D B} {α : Type}

/-- The program stays within some areas. -/
abbrev Within (as : List Area) (x : Act B α) : Prop := Inside Cmd.area as x

/-- A protocol that is about some areas only. -/
abbrev About {Q : Type} (N : Protocol Q (Cmd B) Cmd.Reply) (as : List Area) : Prop :=
  Concerns Cmd.area N as

variable {as : List Area}

/-- A program changes no fields but those of its areas. -/
lemma agree_runs {B α : Type} {as : List Area} {x : Act B α} {a : Except Failure α}
    {s s' : Server B} {f : Field}
    {log : List (Cmd B × Fate)} (hx : Within as x) (hf : as.all (fun a => !a.fields.contains f))
    (h : (service B).Runs x.run s log s' a) : s.Agree s' f := by
  have hcmd (c : Cmd B) (hc : as.contains c.area = true) : c.area.fields.contains f = false :=
    Bool.eq_false_of_not_eq_true' (List.all_eq_true.1 hf _ (List.contains_iff_mem.1 hc))
  exact h.keeps (I := fun s₁ _ => s.Agree s₁ f) hx
    (fun _ _ c _ _ _ _ hc hrun _ hI => hI.trans (Server.agree_run (hcmd c hc) hrun))
      (fun _ _ _ hI => hI) .refl

/-! ## Checks -/

variable {b : ℕ}

lemma within_check {idOk : Bool} : Within [.own] (check b idOk : Act B Unit) :=
  (issues_must (by rfl)).bind fun _ => issues_refuseUnless.bind fun _ =>
    issues_refuseUnless.bind fun _ =>
    (issues_must (by rfl)).bind fun _ => issues_refuse

variable {req : StartRequest D}

/-! ## Workers and registrations -/

variable {now : Int} {l : List String}

lemma within_readRegs : Within [.own, .worker] (readRegs cfg now l) := by
  induction l with
  | nil => exact issues_pure
  | cons worker rest ih =>
    refine (issues_must (by rfl)).bind fun fields => ih.bind fun regs => ?_
    cases fields with
    | none | some _ => exact issues_pure

lemma within_liveRegistration {key : ProcessKey} :
    Within [.own, .worker] (liveRegistration cfg key) := by
  refine ((issues_must (by rfl)).bind fun _ => (issues_must (by rfl)).bind fun _ =>
    within_readRegs).bind fun regs => ?_
  split
  · exact issues_throw
  · exact issues_pure

lemma within_publishUpdates {us : List (RegistryUpdate D)} :
    Within [.feed] (publishUpdates cfg us) := by
  induction us with
  | nil => exact issues_pure
  | cons u us ih =>
    refine Inside.bind ?_ fun _ => ih
    rw [publishRegistryUpdate]
    split
    · exact (issues_attempt (by rfl)).bind fun _ => issues_pure
    · exact issues_pure

variable {worker : String} {regs : List (ProcessRegistration D)}

lemma within_stampFields {firsts : List (String × Int)} {r : Regs B} :
    Within as (stampFields cfg worker now firsts regs r) := by
  induction regs generalizing r with
  | nil => exact issues_pure
  | cons reg regs ih => exact issues_orThrow.bind fun _ => ih.bind fun _ => issues_pure

lemma within_registerProcesses :
    Within [.own, .worker, .feed] (registerProcesses cfg b worker regs) :=
  (within_check.mono (by simp)).bind fun _ => (issues_must (by rfl)).bind fun _ =>
    (issues_must (by rfl)).bind fun _ => within_stampFields.bind fun ⟨_, _⟩ =>
      (issues_must (by rfl)).bind fun _ =>
      (within_publishUpdates.mono (by simp)).bind fun _ =>
        (within_publishUpdates.mono (by simp)).bind fun _ => issues_pure

lemma within_heartbeat : Within [.own, .worker] (heartbeat cfg b worker) :=
  (within_check.mono (by simp)).bind fun _ => (issues_must (by rfl)).bind fun _ =>
    (issues_must (by rfl)).bind fun _ => issues_refuseUnless.bind fun _ => issues_pure

lemma within_unregister : Within [.own, .worker, .feed] (unregister cfg b worker) := by
  refine (within_check.mono (by simp)).bind fun _ => (issues_must (by rfl)).bind fun r => ?_
  cases r with
  | none => exact issues_throw
  | some r => exact (within_publishUpdates.mono (by simp)).bind fun _ => issues_pure

lemma within_sweepWorkers : Within [.own, .worker, .feed] (sweepWorkers cfg l) := by
  induction l with
  | nil => exact issues_pure
  | cons worker rest ih =>
    refine Inside.bind ?_ fun _ => ih
    refine (issues_must (by rfl)).bind fun _ => (issues_attempt (by rfl)).bind fun r => ?_
    split
    · exact within_publishUpdates.mono (by simp)
    · exact issues_pure

lemma within_sweepRegistry : Within [.own, .worker, .feed] (sweepRegistry cfg) := by
  refine (issues_attempt (by rfl)).bind fun r => ?_
  cases r with
  | none => exact issues_pure
  | some workers => exact within_sweepWorkers.bind fun _ => issues_pure

/-! ## Jobs -/

variable {stream : String}

lemma within_ensureGroup : Within [.own, .group] (ensureGroup b stream : Act B Unit) := by
  refine (issues_must (by rfl)).bind fun r => ?_
  split
  · exact issues_pure
  · exact (issues_must (by rfl)).bind fun _ => issues_must (by rfl)

lemma within_addJob {job : Job D} : Within [.queue] (addJob cfg stream job) :=
  issues_orThrow.bind fun _ => issues_must (by rfl)

variable {keys : List ProcessKey}

lemma within_fetchJobs : Within [.own, .group] (fetchJobs b keys : Act B (Answer D)) := by
  refine (issues_must (by rfl)).bind fun _ => issues_refuse.bind fun _ =>
    Inside.bind ?_ fun _ => issues_pure
  induction keys with
  | nil => exact issues_pure
  | cons k ks ih => exact within_ensureGroup.bind fun _ => ih

lemma within_deliverAll {l : List (String × JobEntry B)} :
    Within [.delivery, .take, .settle] (deliverAll cfg b l) := by
  induction l with
  | nil => exact issues_pure
  | cons x rest ih =>
    refine Inside.bind ?_ fun go => ?_
    · rw [deliverJob]
      split
      · exact (issues_attempt (by rfl)).bind fun _ => (issues_attempt (by rfl)).bind fun _ =>
          issues_pure
      · exact (issues_must (by rfl)).bind fun _ => issues_must (by rfl)
    · split
      · exact ih
      · exact issues_pure

lemma within_claimAll : Within [.delivery, .take, .settle] (claimAll cfg b l) := by
  induction l with
  | nil => exact issues_pure
  | cons stream rest ih =>
    refine (issues_attempt (by rfl)).bind fun found => within_deliverAll.bind fun go => ?_
    split
    · exact ih
    · exact issues_pure

lemma within_fetchLoop {reclaim : Bool} :
    Within [.delivery, .take, .settle] (fetchLoop cfg b keys reclaim) := by
  refine within_claimAll.bind fun go => ?_
  split
  · exact (issues_attempt (by rfl)).bind fun _ => within_deliverAll.bind fun _ => issues_pure
  · exact issues_pure

variable {inst : String}

lemma within_settle : Within [.delivery, .settle] (settle b inst : Act B Unit) := by
  refine (issues_must (by rfl)).bind fun l => ?_
  induction l with
  | nil => exact issues_pure
  | cons d ds ih =>
    exact (issues_attempt (by rfl)).bind fun _ => (issues_attempt (by rfl)).bind fun _ => ih

lemma within_terminate {req : StopRequest} :
    Within [.own, .worker, .group, .queue] (terminate cfg b req) :=
  (within_check.mono (by simp)).bind fun _ => (within_liveRegistration.mono (by simp)).bind fun _ =>
    issues_refuseUnless.bind fun _ => (within_ensureGroup.mono (by simp)).bind fun _ =>
      (within_addJob.mono (by simp)).bind fun _ => issues_pure

/-! ## Events and timers -/

lemma within_publish {body : EventBody D} :
    Within [.own, .look, .event] (publishInstanceEvent cfg inst body) :=
  (issues_attempt (by rfl)).bind fun _ => (issues_must (by rfl)).bind fun _ =>
    issues_orThrow.bind fun _ =>
    issues_must (by rfl)

lemma within_subscribeToInstance : Within [.own, .look] (subscribeToInstance cfg b inst) := by
  refine (issues_must (by rfl)).bind fun _ => issues_refuse.bind fun _ =>
    (issues_must (by rfl)).bind fun l => ?_
  rw [replayEntries]
  split
  · refine (issues_must (by rfl)).bind fun e => ?_
    split
    · exact issues_pure
    · exact (issues_must (by rfl)).bind fun _ => issues_pure
  · exact issues_pure

lemma within_fireTimer : Within [.own, .look, .group, .queue] (fireTimer cfg b inst) := by
  refine (issues_attempt (by rfl)).bind fun m => ?_
  split
  · split
    · exact issues_pure
    · split
      · exact issues_pure
      · exact (within_ensureGroup.mono (by simp)).bind fun _ => within_addJob.mono (by simp)
  · exact issues_pure

lemma within_fireTimers : Within [.own, .look, .group, .queue] (fireTimers cfg b l) := by
  induction l with
  | nil => exact issues_pure
  | cons inst rest ih =>
    refine Inside.bind (Issues.quietly ?_) fun _ => ih
    split
    · exact issues_pure
    · exact within_fireTimer

lemma within_moveTimers : Within [.own, .look, .group, .queue, .timer] (moveTimers cfg b) :=
  (issues_must (by rfl)).bind fun _ => (issues_attempt (by rfl)).bind fun _ =>
    (within_fireTimers.mono (by simp)).bind fun _ => issues_pure

/-! ## Whole calls -/

lemma within_submit :
    Within [.own, .worker, .metadata, .group, .queue, .look, .event] (submit cfg b inst req) :=
  (within_check.mono (by simp)).bind fun _ => (within_liveRegistration.mono (by simp)).bind fun _ =>
    issues_checkStart.bind fun _ => (issues_must (by rfl)).bind fun _ =>
      (within_ensureGroup.mono (by simp)).bind fun _ =>
      (within_addJob.mono (by simp)).bind fun _ => (within_publish.mono (by simp)).bind fun _ =>
        issues_pure

end Redis

end Blkit
