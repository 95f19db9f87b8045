import Blkit.Redis.Queues

/-!
# Calls with commands that fail

`Submit` puts the start job on a stream before it publishes that the instance is pending, and
does not take the job back when it returns an error.  So there is no job after an error unless
the command that failed was the `XADD` of that event, or the `XADD` of the job, carried out with
its reply lost (`submit_fails_clean_iff`).
-/

namespace Blkit

namespace Redis

open Broker Prog

variable {D B : Type} {cfg : Config D B}

/-! ## `Submit` -/

/-- A start job of the instance is there for workers. -/
def Server.Startable (s : Server B) (id : String) : Prop :=
  ∃ stream, ∃ e ∈ s.queued stream, e.kind = .start ∧ e.inst = id

/-- The `XADD` of a start job of the instance was carried out. -/
def JobAdded (id : String) (log : List (Cmd B × Fate)) : Prop :=
  ∃ x ∈ log, x.2.landed = true ∧ ∃ stream env, x.1 = .xaddJob stream .start id env

/-- A program that removes no job leaves the start jobs that were there and those it adds. -/
lemma startable_runs {α : Type} {as : List Area} {x : Act B α} {a : Except Failure α}
    {s s' : Server B} {id : String}
    {log : List (Cmd B × Fate)} (hx : Within as x)
    (has : [Area.settle, .unqueue].all (fun a => !as.contains a))
    (h : (service B).Runs x.run s log s' a) : s'.Startable id ↔
      s.Startable id ∨ JobAdded id log := by
  constructor
  · rintro ⟨stream, e, he, hkind, hinst⟩
    obtain ⟨new, hnew, hiff⟩ := grown_runs stream hx has h
    rw [hnew, List.mem_append] at he
    rcases he with hold | hadd
    · exact .inl ⟨stream, e, hold, hkind, hinst⟩
    · obtain ⟨x, hx, hlanded, env, hcmd⟩ := (hiff .start id).1 ⟨e, hadd, hkind, hinst⟩
      exact .inr ⟨x, hx, hlanded, stream, env, hcmd⟩
  · rintro (⟨stream, e, he, hstarts⟩ | ⟨x, hx', hlanded, stream, env, hcmd⟩)
    · obtain ⟨new, hnew, -⟩ := grown_runs stream hx has h
      exact ⟨stream, e, hnew ▸ List.mem_append_left _ he, hstarts⟩
    · obtain ⟨new, hnew, hiff⟩ := grown_runs stream hx has h
      obtain ⟨e, he, hstarts⟩ := (hiff .start id).2 ⟨x, hx', hlanded, env, hcmd⟩
      exact ⟨stream, e, hnew ▸ List.mem_append_right _ he, hstarts⟩

/-- A failure that leaves the start job of the instance behind: the `XADD` of the job is carried
out and its reply lost, or the `XADD` of an event of the instance does not succeed. -/
def leavesJob (id : String) (x : Cmd B × Fate) : Bool :=
  match x.1 with
  | .xaddJob _ .start inst _ => inst = id && x.2 = .lost
  | .xaddInst inst _ _ _ => inst = id && x.2 ≠ .done
  | _ => false

/-- If the call returns an error, its log has a failure that leaves the job behind just when the
job was added. -/
def Blames (id : String) (log : List (Cmd B × Fate)) (a : Except Failure (Answer D)) : Prop :=
  ∀ e, a = .error e → (JobAdded id log ↔ ∃ x ∈ log, leavesJob id x)

variable {id : String} {α : Type} {s : Server B}

/-- Commands that add neither jobs nor events have no part in it. -/
lemma quiet_of_area {l : List (Cmd B × Fate)}
    (h : ∀ x ∈ l, [Area.own, .worker, .metadata, .group].contains x.1.area) :
    ¬ JobAdded id l ∧ ¬ ∃ x ∈ l, leavesJob id x := by
  constructor
  · rintro ⟨⟨c, f⟩, hx, -, stream, env, hc⟩
    have := h _ hx
    rw [hc] at this
    cases this
  · rintro ⟨⟨c, f⟩, hx, hleaves⟩
    have := h _ hx
    cases c <;> first | exact absurd hleaves Bool.false_ne_true | cases this

lemma jobAdded_append {l l' : List (Cmd B × Fate)} :
    JobAdded id (l ++ l') ↔ JobAdded id l ∨ JobAdded id l' := by
  simp only [JobAdded, List.mem_append, or_and_right, exists_or]

/-- The steps before the job is added. -/
lemma blames_before {as : List Area} {x : Act B α} {f : α → Act B (Answer D)} (hx : Within as x)
    (has : as.all [Area.own, .worker, .metadata, .group].contains)
    (h : ∀ a s₁, (service B).Ensures (f a).run s₁ fun l _ => Blames id l) :
    (service B).Ensures (x >>= f).run s fun l _ => Blames id l := by
  refine Service.Ensures.try fun l s₁ a hrun => ?_
  obtain ⟨hadd, hleaves⟩ : ¬ JobAdded id l ∧ ¬ ∃ x ∈ l, leavesJob id x := by
    refine quiet_of_area fun y hy => List.all_eq_true.1 has _ ?_
    exact List.contains_iff_mem.1 (hrun.mem_log hx y hy)
  cases a with
  | error e => exact fun _ _ => iff_of_false hadd hleaves
  | ok a =>
    intro l' s' r hrun' e he
    rw [jobAdded_append, or_iff_right hadd]
    refine (h a s₁ l' s' r hrun' e he).trans ?_
    simp only [List.mem_append, or_and_right, exists_or, or_iff_right hleaves]

/-- The event that the instance is pending can be put into an envelope. -/
def EncodesPending (cfg : Config D B) (id : String) : Prop :=
  ∀ corr now, ∃ env, cfg.codec.encodeEvent ⟨id, corr, .lifecycle .pending, now⟩ = .ok env

/-- Publishing that the instance is pending fails with the `XADD` alone. -/
lemma blames_publish (henc : EncodesPending cfg id) :
    (service B).Ensures (publishInstanceEvent cfg id (.lifecycle .pending)).run s fun l _ a =>
      ∀ e, a = .error e → ∃ x ∈ l, leavesJob id x := by
  refine Service.Ensures.try fun l s₁ a hrun => ?_
  obtain ⟨f, corr, rfl, rfl⟩ := Service.ensures_attempt l s₁ a hrun
  refine Service.Ensures.try (Service.ensures_ask (fun ch s₂ now hrun => ?_) nofun nofun)
  refine Service.ensures_done ?_
  obtain ⟨env, henv⟩ := henc corr.join now
  have hdata :
      (orThrow .encode (cfg.codec.encodeEvent ⟨id, corr.join, .lifecycle .pending, now⟩) :
        Act B B) =
      pure env := by
    rw [henv]
    rfl
  simp only [Option.elim_some, hdata]
  refine Service.ensures_ask (fun _ _ _ _ => Service.ensures_done nofun)
    (fun _ _ _ _ _ => Service.ensures_done fun _ _ => ?_) fun _ =>
      Service.ensures_done fun _ _ => ?_
  all_goals exact ⟨_, List.mem_append_right _ (List.mem_append_right _ (.head _)),
    by simp [leavesJob]⟩

/-- Adding the job, and what comes after it. -/
lemma blames_job {stream : String} {job : Job D} (hkind : jobKindWire job.work = .start)
    (hid : job.instanceID = id) (henc : EncodesPending cfg id) :
    (service B).Ensures (do
      addJob cfg stream job
      publishInstanceEvent cfg id (.lifecycle .pending)
      return .instance id : Act B (Answer D)).run s fun l _ => Blames id l := by
  subst hid
  cases hjob : cfg.codec.encodeJob job with
  | error msg =>
    have hadd : (addJob cfg stream job : Act B Unit) = throw (.encode msg) := by
      rw [addJob, hjob]
      rfl
    rw [hadd]
    exact Service.ensures_done fun _ _ => by simp [JobAdded]
  | ok data =>
    have hadd : (addJob cfg stream job : Act B Unit) =
        ask (.xaddJob stream .start job.instanceID data) := by
      rw [addJob, hjob, hkind]
      rfl
    rw [hadd]
    have hlanded {f : Fate} (hf : f.landed) (l : List (Cmd B × Fate)) :
        JobAdded job.instanceID ((.xaddJob stream .start job.instanceID data, f) :: l) :=
      ⟨_, .head _, hf, stream, data, rfl⟩
    refine Service.Ensures.try (Service.ensures_ask (fun ch s₁ r hrun => ?_)
      (fun _ ch s₁ r hrun => ?_) fun _ => ?_)
    · refine Service.ensures_done (Service.Ensures.try fun l s₂ a hrun' => ?_)
      cases a with
      | ok a => exact Service.ensures_done nofun
      | error e =>
        obtain ⟨x, hx, hleaves⟩ := blames_publish henc l s₂ _ hrun' e rfl
        exact fun _ _ => iff_of_true (hlanded rfl _) ⟨x, .tail _ hx, hleaves⟩
    · refine Service.ensures_done fun _ _ => iff_of_true (hlanded rfl _) ⟨_, .head _, ?_⟩
      simp [leavesJob]
    · refine Service.ensures_done fun _ _ => iff_of_false ?_ ?_
      · rintro ⟨x, hx, hf, -⟩
        rw [List.mem_singleton.1 hx] at hf
        cases hf
      · rintro ⟨x, hx, hleaves⟩
        rw [List.mem_singleton.1 hx] at hleaves
        simp [leavesJob] at hleaves

lemma blames_submit {b : ℕ} {req : StartRequest D} (henc : EncodesPending cfg id) :
    (service B).Ensures (submit cfg b id req).run s fun l _ => Blames id l :=
  blames_before within_check rfl fun _ _ => blames_before within_liveRegistration rfl fun _ _ =>
    blames_before (show Within [] _ from issues_checkStart) rfl fun _ _ =>
      blames_before (show Within [.metadata] _ from issues_must rfl) rfl fun _ _ =>
        blames_before within_ensureGroup rfl fun _ _ => blames_job rfl rfl henc

/-- When `Submit` returns an error, no start job of the instance is there if and only if no
command failed in a way that leaves it behind: neither was the job added with the reply lost, nor
did the event fail that is published after it. -/
theorem submit_fails_clean_iff (cfg : Config D B) (b : ℕ) (id : String) (req : StartRequest D)
    (s s' : Server B) (log : List (Cmd B × Fate)) (e : Failure) (hnew : ¬ s.Startable id)
    (henc : EncodesPending cfg id)
    (h : (service B).Runs (submit cfg b id req).run s log s' (.error e)) :
    ¬ s'.Startable id ↔ ∀ x ∈ log, leavesJob id x = false := by
  rw [startable_runs within_submit rfl h, or_iff_right hnew, blames_submit henc log s' _ h e rfl]
  simp

/-- A server with a worker that has registered. -/
def sampleServer : Server (Envelope Unit) :=
  Server.empty.setWorker "worker"
    (some ⟨90, 0, [(encodeKey sampleKey, .reg sampleReg)], [(encodeKey sampleKey, 0)]⟩)

/-- The commands of `Submit` are carried out up to one, which has this fate. -/
def sampleFates (n : ℕ) (f : Fate) : List (Choice × Fate) :=
  List.replicate n ({ Choice.plain with workers := ["worker"] }, .done) ++ [(Choice.plain, f)]

def sampleSubmit : Prog (Cmd (Envelope Unit)) Cmd.Reply (Except Failure (Answer Unit)) :=
  (submit sampleSystem 0 "i" ⟨sampleKey, "start", (), none⟩).run

/-- The event that the instance is pending cannot be published: an error, and the job is
there. -/
theorem submit_fails_with_job :
    ∃ log s', (service _).Runs sampleSubmit sampleServer log s' (.error .server) ∧
    s'.Startable "i" := by
  refine ⟨_, _, ⟨sampleFates 12 .failed, rfl⟩, encodeKey sampleKey, ?_⟩
  exact ⟨_, List.mem_singleton.2 rfl, rfl, rfl⟩

/-- The job itself cannot be added: an error, and no job. -/
theorem submit_fails_clean : ∃ log s',
    (service _).Runs sampleSubmit sampleServer log s' (.error .server) ∧ ¬ s'.Startable "i" := by
  obtain ⟨log, s', hruns, hlog⟩ : ∃ log s',
      (service _).Runs sampleSubmit sampleServer log s' (.error .server) ∧
        log.all fun x => !leavesJob "i" x := ⟨_, _, ⟨sampleFates 9 .failed, rfl⟩, rfl⟩
  have hnew : ¬ sampleServer.Startable "i" := fun ⟨_, _, he, _⟩ => absurd he List.not_mem_nil
  refine ⟨log, s', hruns, (submit_fails_clean_iff sampleSystem 0 "i" _ _ _ _ _ hnew
    (fun corr now => ⟨_, rfl⟩) hruns).2 fun x hx => ?_⟩
  simpa using List.all_eq_true.1 hlog x hx

end Redis

end Blkit
