import Blkit.Redis.Footprint

/-!
# What a call may do to the lifecycle of an instance

Seen from one instance, a call has a role: it submits the instance, it reports a phase that
is not an end, it finishes it (once it has set the flag it is armed), or it keeps quiet.
The roles are the states of a protocol that every call obeys (`discipline`), so that what
is said about the order of lifecycle events needs no further look at the programs.
-/

namespace Blkit

namespace Redis

open Broker Prog

inductive Role where
  | quiet | starts | started | mild | ends | armed
deriving DecidableEq, Repr

variable {D B : Type} (cfg : Config D B) (id : String)

/-- The role a call begins with. -/
def startRole : Call D → Role
  | .submit _ inst _ => if inst = id then .starts else .quiet
  | .cancel _ req => if req.instanceID = id then .ends else .quiet
  | .report _ inst .running => if inst = id then .mild else .quiet
  | .report _ inst (.suspended _) => if inst = id then .mild else .quiet
  | .report _ inst (.finished _) => if inst = id then .ends else .quiet
  | _ => .quiet

/-- The envelope of an entry holds an event of its kind and phase. -/
def Readable (kind : EventKind) (phase : Option ProcessStatus) (env : B) : Prop :=
  ∃ evt : InstanceEvent D, cfg.codec.decodeEvent env = .ok evt ∧ eventKindName evt.body = kind ∧
    evt.phase = phase

/-- What an event that is appended does to the role. -/
inductive Appends : Role → Option ProcessStatus → Bool → Role → Prop
  | other (q : Role) (heard : Bool) : Appends q none heard q
  | pending : Appends .starts (some .pending) true .started
  | pendingUnheard : Appends .starts (some .pending) false .quiet
  | mild (ph : ProcessStatus) (heard : Bool) (hph : ph.Terminal = false) :
      Appends .mild (some ph) heard .quiet
  | armed (ph : ProcessStatus) (heard : Bool) (hph : ph.Terminal = true) :
      Appends .armed (some ph) heard .quiet

/-- The protocol: lifecycle events of the instance, the flag that it is finished, and its
metadata are for those who have the role for it. -/
def lifecycle : Protocol Role (Cmd B) Cmd.Reply := fun q c r q' =>
  match c, r with
  | .xaddInst inst kind phase env, r =>
    Readable cfg kind phase env ∧ if inst = id then Appends q phase r.isSome q' else q' = q
  | .hsetnxFinished inst, r =>
    if inst = id then q = .ends ∧ q' = (if r = some true then .armed else .quiet) else q' = q
  | .hsetMeta inst _ _, _ => (inst = id → q = .starts) ∧ q' = q
  | _, _ => q' = q

variable {cfg id}

/-! ## Calls that keep quiet -/

lemma about_lifecycle : About (lifecycle cfg id) [.metadata, .flag, .event] := by
  intro c hc q r
  cases c with
  | hsetMeta _ _ _ | hsetnxFinished _ | xaddInst _ _ _ _ => exact absurd (by simp [Cmd.area]) hc
  | _ => rfl

variable {b : ℕ}

lemma still_check {idOk : Bool} : Still (lifecycle cfg id) (check b idOk : Act B Unit) :=
  within_check.unnoticed about_lifecycle rfl

lemma still_liveRegistration {key : ProcessKey} :
    Still (lifecycle cfg id) (liveRegistration cfg key) :=
  within_liveRegistration.unnoticed about_lifecycle rfl

variable {stream : String}

lemma still_ensureGroup : Still (lifecycle cfg id) (ensureGroup b stream : Act B Unit) :=
  within_ensureGroup.unnoticed about_lifecycle rfl

lemma still_addJob {job : Job D} : Still (lifecycle cfg id) (addJob cfg stream job) :=
  within_addJob.unnoticed about_lifecycle rfl

variable {inst : String}

lemma still_settle : Still (lifecycle cfg id) (settle b inst : Act B Unit) :=
  within_settle.unnoticed about_lifecycle rfl

variable {req : StartRequest D}

lemma still_checkStart {reg : ProcessRegistration D} :
    Still (lifecycle cfg id) (checkStart cfg.validate reg req : Act B Unit) :=
  Inside.unnoticed (show Within [] (checkStart cfg.validate reg req : Act B Unit)
    from issues_checkStart) about_lifecycle rfl

lemma still_refuseUnless {b : Bool} {r : Refusal} :
    Still (lifecycle cfg id) (refuseUnless b r : Act B Unit) :=
  Inside.unnoticed (show Within [] (refuseUnless b r) from issues_refuseUnless) about_lifecycle rfl

/-! ## Events -/

/-- An event is appended with an envelope that holds it. -/
lemma readable_encode {evt : InstanceEvent D} {data : B}
    (h : cfg.codec.encodeEvent evt = .ok data) :
    Readable cfg (eventKindName evt.body) (phaseField evt.body) data := by
  obtain ⟨f, hf⟩ := cfg.codec.decodeEvent_encode evt data h
  refine ⟨evt.map f, hf, ?_, ?_⟩
  all_goals
    obtain ⟨i, ck, body, t⟩ := evt
    cases body <;> rfl

variable {q : Role}

/-- What `publishInstanceEvent` does is what its last command does. -/
lemma obeys_publish {body : EventBody D} {post : Role → Except Failure Unit → Prop}
    (hadd : ∀ data r, Readable cfg (eventKindName body) (phaseField body) data →
      ∃ q', lifecycle cfg id q (.xaddInst inst (eventKindName body) (phaseField body) data) r q' ∧
        post q' (r.elim (.error .server) .ok))
    (herror : ∀ e, post q (.error e)) : Obeys (lifecycle cfg id) post q
      (publishInstanceEvent cfg inst body).run := by
  refine Still.obeys (still_attempt fun _ _ => rfl) (fun corr => ?_) herror
  refine Still.obeys (still_must fun _ _ => rfl) (fun now => ?_) herror
  cases hdata : cfg.codec.encodeEvent ⟨inst, corr.join, body, now⟩ with
  | error msg => exact herror _
  | ok data => exact fun r => hadd data r (readable_encode hdata)

lemma still_publish {body : EventBody D} (h : inst = id → phaseField body = none) :
    Still (lifecycle cfg id) (publishInstanceEvent cfg inst body) := by
  intro q
  refine obeys_publish (fun data r hdata => ⟨q, ⟨hdata, ?_⟩, rfl⟩) fun _ => rfl
  split
  · rename_i hid
    rw [h hid]
    exact .other q _
  · rfl

variable {requestID : String} {payload : D}

lemma still_passOn {m : Option Meta} :
    Still (lifecycle cfg id) (passOn cfg b inst requestID payload m) := by
  cases m with
  | none => exact still_publish fun _ => rfl
  | some m =>
    rw [passOn]
    split
    · exact still_publish fun _ => rfl
    · split
      · exact fun _ => rfl
      · exact still_ensureGroup.bind fun _ => still_addJob

lemma still_post {body : EventBody D} (h : inst = id → phaseField body = none) :
    Still (lifecycle cfg id) (post cfg inst body) := (still_publish h).bind fun _ => still_pure

variable {o : Outcome D}

lemma still_publishExtra : Still (lifecycle cfg id) (publishExtra cfg inst o.extra) := by
  cases o with
  | completed result | failed e => exact still_publish fun _ => rfl
  | cancelled => exact still_pure

/-! ## Calls that end an instance -/

/-- What is left to do after the terminal event. -/
lemma still_afterEnd : Still (lifecycle cfg id) (do
      publishExtra cfg inst o.extra
      let _ ← attempt (.pexpireMeta inst)
      let _ ← attempt (.pexpireInst inst)
      return (.nothing : Answer D)) :=
  still_publishExtra.bind fun _ => (still_attempt fun _ _ => rfl).bind fun _ =>
    (still_attempt fun _ _ => rfl).bind fun _ => still_pure

lemma still_finish (h : inst ≠ id) : Still (lifecycle cfg id) (finish cfg b inst o) := by
  refine still_settle.bind fun _ => (still_attempt fun _ _ => rfl).bind fun _ =>
    Still.bind ?_ fun set => ?_
  · refine still_must fun q r => ?_
    show if inst = id then _ else q = q
    rw [if_neg h]
  · split
    · exact (still_publish fun heq => absurd heq h).bind fun _ => still_afterEnd
    · exact still_pure

/-- The call that has set the flag publishes one terminal event. -/
lemma obeys_conclude :
    Obeys (lifecycle cfg id) (fun _ _ => True) .armed (conclude cfg id o).run := by
  refine obeys_try.2
    (obeys_publish (fun data r hdata => ⟨.quiet, ⟨hdata, ?_⟩, ?_⟩) fun _ => trivial)
  · rw [if_pos rfl]
    exact .armed o.phase _ (by cases o <;> rfl)
  · cases r with
    | none => trivial
    | some u => exact (still_afterEnd .quiet).mono fun _ _ _ => trivial

lemma obeys_finish : Obeys (lifecycle cfg id) (fun _ _ => True) .ends (finish cfg b id o).run := by
  refine still_settle.obeys (fun _ => ?_) fun _ => trivial
  refine Still.obeys (still_attempt fun _ _ => rfl) (fun _ => ?_) fun _ => trivial
  refine obeys_try.2 (obeys_must.2 fun r => ⟨if r = some true then .armed else .quiet, ?_, ?_⟩)
  · show if id = id then _ else _
    rw [if_pos rfl]
    exact ⟨rfl, rfl⟩
  · rcases r with _ | set
    · trivial
    · cases set with
      | false => exact trivial
      | true => exact obeys_conclude

lemma obeys_cancel {req : StopRequest} (h : req.instanceID = id) :
    Obeys (lifecycle cfg id) (fun _ _ => True) .ends (cancel cfg b req).run := by
  refine still_check.obeys (fun _ => ?_) fun _ => trivial
  refine still_liveRegistration.obeys (fun reg => ?_) fun _ => trivial
  refine still_ensureGroup.obeys (fun _ => ?_) fun _ => trivial
  refine Still.obeys (still_must fun _ _ => rfl) (fun removed => ?_) fun _ => trivial
  split
  · exact h ▸ obeys_finish
  · have hrest : Still (lifecycle cfg id) (do
        refuseUnless reg.allowExternalCancel .cancelNotAllowed
        addJob cfg (encodeKey req.key) ⟨req.key, .cancel req.instanceID req.reason⟩
        return (.nothing : Answer D)) :=
      still_refuseUnless.bind fun _ => still_addJob.bind fun _ => still_pure
    exact (hrest .ends).mono fun _ _ _ => trivial

lemma still_cancel {req : StopRequest} (h : req.instanceID ≠ id) :
    Still (lifecycle cfg id) (cancel cfg b req) := by
  refine still_check.bind fun _ => still_liveRegistration.bind fun reg =>
    still_ensureGroup.bind fun _ =>
    (still_must fun _ _ => rfl).bind fun removed => ?_
  split
  · exact still_finish h
  · exact still_refuseUnless.bind fun _ => still_addJob.bind fun _ => still_pure

/-! ## Reports -/

/-- A phase that is not an end is published once. -/
lemma obeys_publish_mild {ph : ProcessStatus} (hph : ph.Terminal = false) :
    Obeys (lifecycle cfg id) (fun q a => ∀ u, a = .ok u → q = .quiet) .mild
      (publishInstanceEvent cfg id (.lifecycle ph)).run := by
  refine obeys_publish (fun data r hdata => ⟨.quiet, ⟨hdata, ?_⟩, fun _ _ => rfl⟩) fun _ => nofun
  rw [if_pos rfl]
  exact .mild ph _ hph

lemma still_afterSuspend {resumeAt : Option Int} : Still (lifecycle cfg id) (do
      settle b inst
      match resumeAt with
      | none => return (.nothing : Answer D)
      | some t =>
        ask (.zadd inst (msOf t))
        return .nothing) := by
  refine still_settle.bind fun _ => ?_
  cases resumeAt with
  | none => exact still_pure
  | some t => exact (still_must fun _ _ => rfl).bind fun _ => still_pure

variable {what : Report D}

lemma obeys_report :
    Obeys (lifecycle cfg id) (fun _ _ => True) (startRole id (.report b id what))
      (report cfg b id what).run := by
  refine still_check.obeys (fun _ => ?_) fun _ => trivial
  cases what with
  | running =>
    rw [startRole, if_pos rfl]
    refine obeys_try.2 ((obeys_publish_mild rfl).mono ?_)
    rintro q (e | u) hq <;> trivial
  | suspended resumeAt =>
    rw [startRole, if_pos rfl]
    refine obeys_try.2 ((obeys_publish_mild rfl).mono ?_)
    rintro q (e | u) hq
    · trivial
    · exact (still_afterSuspend q).mono fun _ _ _ => trivial
  | finished o =>
    rw [startRole, if_pos rfl]
    exact obeys_finish
  | error e
  | inputRequest nodeID requestID payload
  | nodeCompleted nodeID nodeKind outputs =>
    exact (still_post (fun _ => rfl) .quiet).mono fun _ _ _ => trivial

lemma still_report (h : inst ≠ id) : Still (lifecycle cfg id) (report cfg b inst what) := by
  refine still_check.bind fun _ => ?_
  cases what with
  | suspended resumeAt => exact (still_publish fun heq => absurd heq h).bind fun _ =>
    still_afterSuspend
  | finished o => exact still_finish h
  | _ => exact still_post fun heq => absurd heq h

/-! ## `Submit` -/

lemma obeys_submit :
    Obeys (lifecycle cfg id) (fun q a => ∀ ans, a = .ok ans → q = .started) .starts
      (submit cfg b id req).run := by
  refine still_check.obeys (fun _ => ?_) fun _ => nofun
  refine still_liveRegistration.obeys (fun reg => ?_) fun _ => nofun
  refine still_checkStart.obeys (fun _ => ?_) fun _ => nofun
  refine obeys_try.2 (obeys_must.2 fun r => ⟨.starts, ⟨fun _ => rfl, rfl⟩, ?_⟩)
  cases r with
  | none => exact nofun
  | some u =>
    refine still_ensureGroup.obeys (fun _ => ?_) fun _ => nofun
    refine still_addJob.obeys (fun _ => ?_) fun _ => nofun
    refine obeys_try.2 (obeys_publish (fun data r hdata => ?_) fun _ => nofun)
    cases r with
    | none => exact ⟨.quiet, ⟨hdata, by rw [if_pos rfl]; exact .pendingUnheard⟩, nofun⟩
    | some u => exact ⟨.started, ⟨hdata, by rw [if_pos rfl]; exact .pending⟩, fun _ _ => rfl⟩

lemma still_submit (h : inst ≠ id) : Still (lifecycle cfg id) (submit cfg b inst req) :=
  still_check.bind fun _ => still_liveRegistration.bind fun _ => still_checkStart.bind fun _ =>
    (still_must fun _ _ => ⟨fun heq => absurd heq h, rfl⟩).bind fun _ =>
      still_ensureGroup.bind fun _ =>
      still_addJob.bind fun _ => (still_publish fun heq => absurd heq h).bind fun _ => still_pure

/-! ## All calls -/

variable (id) in
/-- `Submit` returns the instance only when its first event is on the stream. -/
def Kept (k : Call D) (q : Role) (a : Except Failure (Answer D)) : Prop :=
  startRole id k = .starts → ∀ ans, a = .ok ans → q = .started

variable {k : Call D} {x : Act B (Answer D)}

/-- A call that keeps quiet. -/
lemma Still.kept (hx : Still (lifecycle cfg id) x) (hk : startRole id k = .quiet) :
    Obeys (lifecycle cfg id) (Kept id k) (startRole id k) x.run := by
  rw [hk]
  refine (hx .quiet).mono fun q a _ hstarts => ?_
  rw [hk] at hstarts
  cases hstarts

/-- A call that does not submit the instance. -/
lemma kept_of_ne (hk : startRole id k ≠ .starts)
    (hx : Obeys (lifecycle cfg id) (fun _ _ => True) q x.run) :
      Obeys (lifecycle cfg id) (Kept id k) q x.run :=
  hx.mono fun _ _ _ hstarts => absurd hstarts hk

lemma startRole_report_ne : startRole id (.report b inst what) ≠ .starts := by
  cases what with
  | running | suspended resumeAt | finished o => rw [startRole]; split <;> nofun
  | _ => nofun

lemma startRole_report_quiet (h : inst ≠ id) : startRole id (.report b inst what) = .quiet := by
  cases what with
  | running | suspended _ | finished _ => exact if_neg h
  | _ => rfl

lemma obeys_body (k : Call D) :
    Obeys (lifecycle cfg id) (Kept id k) (startRole id k) (body cfg k).run := by
  cases k with
  | submit b inst req =>
    by_cases h : inst = id
    · subst h
      rw [startRole, if_pos rfl]
      exact obeys_submit.mono fun q a hq _ => hq
    · exact Still.kept (still_submit h) (if_neg h)
  | cancel b req =>
    by_cases h : req.instanceID = id
    · have hk : startRole id (.cancel b req : Call D) = .ends := if_pos h
      rw [hk]
      exact kept_of_ne (by rw [hk]; nofun) (obeys_cancel h)
    · exact Still.kept (still_cancel h) (if_neg h)
  | terminate b req => exact Still.kept (within_terminate.unnoticed about_lifecycle rfl) rfl
  | respondToInputRequest b inst requestID payload =>
    exact Still.kept (still_check.bind fun _ => (still_must fun _ _ => rfl).bind fun _ =>
      still_passOn.bind fun _ => still_pure) rfl
  | report b inst what =>
    by_cases h : inst = id
    · subst h
      exact kept_of_ne startRole_report_ne obeys_report
    · exact Still.kept (still_report h) (startRole_report_quiet h)
  | subscribeToInstance b inst =>
    exact Still.kept (within_subscribeToInstance.unnoticed about_lifecycle rfl) rfl
  | registerProcesses b worker regs =>
    exact Still.kept (within_registerProcesses.unnoticed about_lifecycle rfl) rfl
  | heartbeat b worker => exact Still.kept (within_heartbeat.unnoticed about_lifecycle rfl) rfl
  | unregister b worker => exact Still.kept (within_unregister.unnoticed about_lifecycle rfl) rfl
  | sweepRegistry => exact Still.kept (within_sweepRegistry.unnoticed about_lifecycle rfl) rfl
  | fetchJobs b keys => exact Still.kept (within_fetchJobs.unnoticed about_lifecycle rfl) rfl
  | fetchLoop b keys reclaim =>
    exact Still.kept (within_fetchLoop.unnoticed about_lifecycle rfl) rfl
  | moveTimers b => exact Still.kept (within_moveTimers.unnoticed about_lifecycle rfl) rfl
  | close b
  | expireMeta inst
  | expireInst inst => exact Still.kept ((still_must fun _ _ => rfl).bind fun _ => still_pure) rfl

/-- Every call obeys the protocol of every instance. -/
def discipline (cfg : Config D B) (id : String) : Discipline (system cfg) Role where
  rules := lifecycle cfg id
  start := startRole id
  post := Kept id
  obeys := obeys_body

end Redis

end Blkit
