import Blkit.Redis.Queues

/-!
# Firing timers

A round of `moveTimers` claims the timers that are due, which removes them, and then adds the
job to resume each instance.  If a command on the way fails, the timer is gone and there is
no job.
-/

namespace Blkit

namespace Redis

open Broker Prog List Service

variable {D B : Type}

def Cmd.looksAt (id : String) : Cmd B → Bool
  | .hgetallMeta inst => inst = id
  | _ => false

/-- The part of the log of a round that is about one timer: from the look at its instance up to
the next look. -/
def firing (id : String) (log : List (Cmd B × Fate)) : List (Cmd B × Fate) :=
  match log.dropWhile fun x => !x.1.looksAt id with
  | [] => []
  | x :: rest => x :: rest.takeWhile fun y => y.1.area ≠ .look

lemma mem_of_mem_firing {id : String} {log : List (Cmd B × Fate)} {x : Cmd B × Fate}
    (h : x ∈ firing id log) : x ∈ log := by
  have hsub : (log.dropWhile fun x => !x.1.looksAt id).Sublist log := dropWhile_sublist _
  rw [firing] at h
  split at h
  · exact absurd h not_mem_nil
  · rename_i y rest heq
    rw [heq] at hsub
    exact hsub.subset (((takeWhile_sublist _).cons_cons y).subset h)

/-- The command was not done; that a job was added and the reply was lost does not matter. -/
def Spoils (x : Cmd B × Fate) : Prop := x.2 ≠ .done ∧ ¬ (x.1.area = .queue ∧ x.2 = .lost)

/-- The timers were claimed and the broker was not told which, or firing this one failed. -/
def Spoiled (id : String) (log : List (Cmd B × Fate)) : Prop :=
  (∃ now, (.dueTimers now, .lost) ∈ log) ∨ ∃ x ∈ firing id log, Spoils x

/-- The instance has not finished, and its metadata has its key. -/
def Server.Resumable (s : Server B) (id : String) (key : ProcessKey) : Prop :=
  ∃ m, s.metas id = some m ∧ m.finished = false ∧ m.key.bind decodeKey = some key

variable {cfg : Config D B} {id : String} {key : ProcessKey} {b : ℕ} {s s' : Server B}
  {log : List (Cmd B × Fate)}

/-! ## One timer -/

variable {stream : String} {f : Fate}

lemma spoils_of_group (hf : f ≠ .done) : Spoils ((.xgroupCreate stream : Cmd B), f) :=
  ⟨hf, fun h => nomatch h.1⟩

lemma not_spoils_of_done {c : Cmd B} : ¬ Spoils (c, .done) := fun h => h.1 rfl

/-- The stream gets its group, or there is an error. -/
lemma ensures_ensureGroup : (service B).Ensures (ensureGroup b stream : Act B Unit).run s
    fun l _ a => if a.isOk then ∀ x ∈ l, ¬ Spoils x else ∃ x ∈ l, Spoils x := by
  refine ensures_ask (fun ch s₁ known hrun => ?_) nofun nofun
  cases known with
  | true => exact ensures_done (forall_mem_singleton.2 not_spoils_of_done)
  | false =>
    refine ensures_ask (fun ch s₁ r hrun => ?_) (fun _ ch s₁ r hrun => ?_) fun _ => ?_
    · refine ensures_ask (fun ch s₁ r hrun => ?_) nofun nofun
      refine ensures_done fun x hx => ?_
      obtain rfl | rfl | rfl : x = _ ∨ x = _ ∨ x = _ := by simpa using hx
      all_goals exact not_spoils_of_done
    all_goals exact ensures_done ⟨_, .tail _ (.head _), spoils_of_group nofun⟩

variable {kind : JobKind} {inst : String}

/-- Commands of other areas add no job. -/
lemma not_addedTo (h : ∀ x ∈ log, x.1.area ≠ .queue) : ¬ AddedTo stream kind inst log := by
  rintro ⟨x, hx, -, env, hcmd⟩
  have harea := h x hx
  rw [hcmd] at harea
  exact harea rfl

variable {env : B}

/-- The last command adds the job. -/
lemma ensures_addJob {job : Job D} (henc : cfg.codec.encodeJob job = .ok env) :
    (service B).Ensures (addJob cfg stream job).run s fun l _ _ =>
      ∃ f, l = [(.xaddJob stream (jobKindWire job.work) job.instanceID env, f)] := by
  show (service B).Ensures (orThrow .encode (cfg.codec.encodeJob job) >>= fun data =>
    ask (.xaddJob stream (jobKindWire job.work) job.instanceID data) : Act B Unit).run s _
  rw [henc]
  refine ensures_ask (fun ch s₁ r hrun => ?_) (fun _ ch s₁ r hrun => ?_) fun _ => ?_
  · exact ensures_done ⟨.done, rfl⟩
  · exact ensures_done ⟨.lost, rfl⟩
  · exact ensures_done ⟨.failed, rfl⟩

lemma spoils_xaddJob : Spoils ((.xaddJob stream kind inst env : Cmd B), f) ↔ f = .failed := by
  constructor
  · rintro ⟨hdone, hlost⟩
    cases f with
    | done => exact absurd rfl hdone
    | lost => exact absurd ⟨rfl, rfl⟩ hlost
    | failed => rfl
  · rintro rfl
    exact ⟨nofun, fun h => nomatch h.2⟩

/-- The job is added if and only if nothing fails on the way. -/
lemma ensures_fireTimer (hs : s.Resumable id key)
    (henc : cfg.codec.encodeJob ⟨key, .resume id⟩ = .ok env) :
    (service B).Ensures (fireTimer cfg b id).run s fun l _ _ =>
      AddedTo (encodeKey key) .resume id l ↔ ∀ x ∈ l, ¬ Spoils x := by
  obtain ⟨m, hm, hfinished, hkey⟩ := hs
  have harea : (Cmd.hgetallMeta id : Cmd B).area ≠ .queue := by rintro ⟨⟩
  have hunheard {f : Fate} (hf : f ≠ .done) :
      AddedTo (encodeKey key) .resume id [((.hgetallMeta id : Cmd B), f)] ↔
      ∀ x ∈ [((.hgetallMeta id : Cmd B), f)], ¬ Spoils x :=
    iff_of_false (not_addedTo (forall_mem_singleton.2 harea))
      fun h => h _ (.head _) ⟨hf, fun h => harea h.1⟩
  refine ensures_ask (fun ch s₁ r hrun => ?_) (fun _ ch s₁ r hrun => ?_) fun _ => ?_
  · cases hrun
    rw [hm]
    show (service B).Ensures (if m.finished then (pure () : Act B Unit) else _).run _ _
    rw [hfinished, hkey]
    refine Ensures.try fun l s₁ a hgroup => ?_
    have hspoils := ensures_ensureGroup _ _ _ hgroup
    have hgroup : ∀ y ∈ l, y.1.area ≠ .queue := by
      intro y hy harea
      have hmem := hgroup.mem_log within_ensureGroup y hy
      rw [harea] at hmem
      cases hmem
    have hbefore : ∀ x ∈ ((.hgetallMeta id : Cmd B), Fate.done) :: l, x.1.area ≠ .queue :=
      forall_mem_cons.2 ⟨harea, hgroup⟩
    cases a with
    | error e =>
      obtain ⟨x, hx, hspoils⟩ := hspoils
      exact iff_of_false (not_addedTo hbefore) fun h => h x (.tail _ hx) hspoils
    | ok u =>
      intro l' s₂ a hadd
      obtain ⟨f, rfl⟩ := ensures_addJob henc _ _ _ hadd
      have hclean : ∀ x ∈ ((.hgetallMeta id : Cmd B), Fate.done) :: l, ¬ Spoils x :=
        forall_mem_cons.2 ⟨not_spoils_of_done, hspoils⟩
      rw [← cons_append, addedTo_append, or_iff_right (not_addedTo hbefore), addedTo_singleton,
        forall_mem_append, forall_mem_singleton, spoils_xaddJob, and_iff_right hclean]
      cases f with
      | failed => exact iff_of_false (fun h => Bool.false_ne_true h.1) fun h => h rfl
      | _ => exact iff_of_true ⟨rfl, env, rfl⟩ (by decide)
  all_goals exact ensures_done (hunheard (by decide))

/-! ## A round -/

/-- Firing the timers of other instances adds no job of this one, and does not look at it. -/
def Elsewhere (id : String) (c : Cmd B) : Prop :=
  c.looksAt id = false ∧ ∀ stream kind env, c ≠ .xaddJob stream kind id env

lemma elsewhere_ensureGroup : Issues (Elsewhere id) (ensureGroup b stream : Act B Unit) := by
  refine Issues.mono within_ensureGroup fun c hc => ?_
  cases c with
  | hgetallMeta _ | xaddJob _ _ _ _ => cases hc
  | _ => exact ⟨rfl, nofun⟩

lemma elsewhere_fireTimer (h : inst ≠ id) : Issues (Elsewhere id) (fireTimer cfg b inst) := by
  refine Issues.bind (issues_attempt ⟨decide_eq_false h, nofun⟩) fun m => ?_
  split
  · split
    · exact issues_pure
    · split
      · exact issues_pure
      · refine elsewhere_ensureGroup.bind fun _ => issues_orThrow.bind fun data => ?_
        refine issues_must ⟨rfl, fun stream kind env heq => ?_⟩
        cases heq
        exact h rfl
  · exact issues_pure

lemma elsewhere_fireTimers {l : List String} (h : id ∉ l) :
    Issues (Elsewhere id) (fireTimers cfg b l) := by
  induction l with
  | nil => exact issues_pure
  | cons inst rest ih =>
    refine Issues.bind (Issues.quietly ?_) fun _ => ih fun hmem => h (.tail _ hmem)
    split
    · exact issues_pure
    · exact elsewhere_fireTimer fun heq => h (heq ▸ .head _)

lemma not_addedTo_of_elsewhere (h : ∀ x ∈ log, Elsewhere id x.1) :
    ¬ AddedTo stream kind id log := by
  rintro ⟨x, hx, -, env, hcmd⟩
  exact (h x hx).2 stream kind env hcmd

/-- Firing a timer begins with a look at its instance, and does not look again. -/
lemma ensures_fireTimer_looks : (service B).Ensures (fireTimer cfg b inst).run s
    fun l _ _ => ∃ f rest, l = (.hgetallMeta inst, f) :: rest ∧ ∀ y ∈ rest, y.1.area ≠ .look := by
  refine Ensures.try fun l s₁ m hlook => ?_
  obtain ⟨f, m, rfl, rfl⟩ := ensures_attempt _ _ _ hlook
  intro rest s₂ a hrest
  refine ⟨f, rest, rfl, fun y hy harea => ?_⟩
  have hmem : [Area.own, .group, .queue].contains y.1.area = true := by
    refine hrest.mem_log (P := fun c => [Area.own, .group, .queue].contains c.area = true) ?_ y hy
    split
    · split
      · exact issues_pure
      · split
        · exact issues_pure
        · exact (within_ensureGroup.mono (by simp)).bind fun _ => within_addJob.mono (by simp)
    · exact issues_pure
  rw [harea] at hmem
  cases hmem

/-- The log of a round is empty, or begins with a look. -/
lemma ensures_fireTimers_looks {l : List String} : (service B).Ensures (fireTimers cfg b l).run s
    fun log _ _ => ∀ x, log.head? = some x → x.1.area = .look := by
  induction l generalizing s with
  | nil => exact ensures_done nofun
  | cons inst rest ih =>
    by_cases h : inst = ""
    · subst h
      exact ih
    · refine Ensures.try fun l₁ s₁ a hfire => ?_
      rw [if_neg h] at hfire
      obtain ⟨⟨f, more, rfl, -⟩, rfl⟩ := Ensures.quietly ensures_fireTimer_looks _ _ _ hfire
      intro l₂ s₂ a hrest x hx
      cases hx
      rfl

variable {l : List (Cmd B × Fate)}

/-- The part that is about the timer of an instance, in front of the rest. -/
lemma firing_append {rest : List (Cmd B × Fate)} (hrest : ∀ y ∈ rest, y.1.area ≠ .look)
    (hl : ∀ x, l.head? = some x → x.1.area = .look) :
    firing id ((.hgetallMeta id, f) :: rest ++ l) = (.hgetallMeta id, f) :: rest := by
  have hdrop : ((.hgetallMeta id, f) :: (rest ++ l)).dropWhile
      (fun x : Cmd B × Fate => !x.1.looksAt id) =
      (.hgetallMeta id, f) :: (rest ++ l) :=
    dropWhile_cons_of_neg (by simp [Cmd.looksAt])
  rw [cons_append, firing, hdrop]
  show _ :: takeWhile _ (rest ++ l) = _
  rw [takeWhile_append_of_pos fun y hy => decide_eq_true (hrest y hy)]
  cases l with
  | nil => rw [takeWhile_nil, append_nil]
  | cons x l => rw [takeWhile_cons_of_neg (by simpa using hl x rfl), append_nil]

lemma firing_append_of_elsewhere {l' : List (Cmd B × Fate)} (h : ∀ x ∈ l, Elsewhere id x.1) :
    firing id (l ++ l') = firing id l' := by
  rw [firing, dropWhile_append_of_pos fun x hx => by rw [(h x hx).1]; rfl]
  rfl

lemma Server.Resumable.of_agree (h : s.Resumable id key) (hs : s.Agree s' .metas) :
    s'.Resumable id key := by
  obtain ⟨m, hm, hrest⟩ := h
  exact ⟨m, (congrFun hs id).trans hm, hrest⟩

/-- Among the timers that are fired, the job of this one is added if and only if its own part
does not fail. -/
lemma ensures_fireTimers {due : List String} (hnodup : due.Nodup) (hmem : id ∈ due) (hid : id ≠ "")
    (hs : s.Resumable id key) (henc : cfg.codec.encodeJob ⟨key, .resume id⟩ = .ok env) :
    (service B).Ensures (fireTimers cfg b due).run s fun log _ _ =>
      AddedTo (encodeKey key) .resume id log ↔ ∀ x ∈ firing id log, ¬ Spoils x := by
  induction due generalizing s with
  | nil => exact absurd hmem not_mem_nil
  | cons inst rest ih =>
    obtain ⟨hnot, hnodup⟩ := nodup_cons.1 hnodup
    refine Ensures.try fun l s₁ a hfire => ?_
    by_cases heq : inst = id
    · -- the others come later
      subst heq
      rw [if_neg hid] at hfire
      obtain ⟨hiff, rfl⟩ := Ensures.quietly (ensures_fireTimer hs henc) _ _ _ hfire
      obtain ⟨⟨f, more, rfl, hmore⟩, -⟩ := Ensures.quietly ensures_fireTimer_looks _ _ _ hfire
      intro l' s₂ a hrest
      have helse := hrest.mem_log (elsewhere_fireTimers hnot)
      rw [firing_append hmore (ensures_fireTimers_looks _ _ _ hrest), addedTo_append,
        or_iff_left (not_addedTo_of_elsewhere helse), hiff]
    · -- this one comes later
      have hwithin : Within [.own, .look, .group, .queue]
          (if inst = "" then pure () else fireTimer cfg b inst) := by
        split
        · exact issues_pure
        · exact within_fireTimer
      have hissues : Issues (Elsewhere id)
          (if inst = "" then pure () else fireTimer cfg b inst) := by
        split
        · exact issues_pure
        · exact elsewhere_fireTimer heq
      obtain ⟨⟨helse, hagree⟩, rfl⟩ := Ensures.quietly
        (fun l s₁ a h => And.intro (h.mem_log hissues) (agree_runs hwithin (f := .metas) rfl h)) _
          _ _ hfire
      intro l' s₂ a hrest
      rw [firing_append_of_elsewhere helse, addedTo_append,
        or_iff_right (not_addedTo_of_elsewhere helse)]
      exact ih hnodup ((mem_cons.1 hmem).resolve_left (Ne.symm heq))
        (hs.of_agree hagree) _ _ _ hrest

/-! ## The scheduler -/

variable {now : Int}

lemma nodup_due (h : (s.timers.map Prod.fst).Nodup) : ((s.dueList now).map Prod.fst).Nodup := by
  have hfilter : ((s.timers.filter fun x => x.2 ≤ now).map Prod.fst).Nodup :=
    (filter_sublist.map _).nodup h
  have hsorted :=
    ((mergeSort_perm _ fun x y => x.2 < y.2 || (x.2 == y.2 && x.1 ≤ y.1)).map
      Prod.fst).nodup_iff.2 hfilter
  exact ((take_sublist _ _).map _).nodup hsorted

/-- What a round does to a timer: it stays, or it is claimed, and then it depends on the log
whether the job is added. -/
def Decides (id : String) (t : Int) (key : ProcessKey) (log : List (Cmd B × Fate))
    (s' : Server B) : Prop :=
  (id, t) ∈ s'.timers ∧ ¬ AddedTo (encodeKey key) .resume id log ∨
    id ∉ s'.timers.map Prod.fst ∧ (AddedTo (encodeKey key) .resume id log ↔ ¬ Spoiled id log)

variable {t : Int}

lemma timers_dueTimers (ht : (id, t) ∈ s.timers) (hdue : id ∉ (s.dueList now).map Prod.fst) :
    (id, t) ∈ (s.dueTimers now).2.timers := mem_filter.2 ⟨ht, decide_eq_true hdue⟩

lemma not_mem_dueTimers (hdue : id ∈ (s.dueList now).map Prod.fst) :
    id ∉ (s.dueTimers now).2.timers.map Prod.fst := by
  intro hmem
  obtain ⟨x, hx, rfl⟩ := mem_map.1 hmem
  exact of_decide_eq_true (mem_filter.1 hx).2 hdue

/-- The first two commands of a round have nothing to do with one timer in particular. -/
lemma elsewhere_due : ∀ x ∈ [((.now : Cmd B), Fate.done), (.dueTimers now, f)], Elsewhere id x.1 :=
  forall_mem_cons.2 ⟨⟨rfl, nofun⟩, forall_mem_singleton.2 ⟨rfl, nofun⟩⟩

lemma decides_claimed (hout : id ∉ s'.timers.map Prod.fst) (hl : ∀ x ∈ l, x.1.area ≠ .timer)
    (hiff : AddedTo (encodeKey key) .resume id l ↔ ∀ x ∈ firing id l, ¬ Spoils x) :
    Decides id t key ([(.now, .done), (.dueTimers now, .done)] ++ l) s' := by
  refine .inr ⟨hout, ?_⟩
  rw [addedTo_append, or_iff_right (not_addedTo_of_elsewhere elsewhere_due), hiff, Spoiled,
    firing_append_of_elsewhere elsewhere_due, not_or]
  have hheard : ¬ ∃ now',
      ((.dueTimers now' : Cmd B), Fate.lost) ∈ [(.now, .done), (.dueTimers now, .done)] ++ l := by
    rintro ⟨now', hmem⟩
    rcases mem_append.1 hmem with hmem | hmem
    · simp at hmem
    · exact hl _ hmem rfl
  rw [and_iff_right hheard]
  simp

lemma ensures_moveTimers (hnodup : (s.timers.map Prod.fst).Nodup) (hid : id ≠ "")
    (hs : s.Resumable id key) (henc : cfg.codec.encodeJob ⟨key, .resume id⟩ = .ok env)
    (ht : (id, t) ∈ s.timers) :
    (service B).Ensures (moveTimers cfg b).run s fun log s' _ => Decides id t key log s' ∧
      s'.timers.Sublist s.timers := by
  refine ensures_ask (fun ch s₁ now hrun => ?_) nofun nofun
  cases hrun
  refine ensures_ask (fun ch' s₁ due hrun => ?_) (fun _ ch' s₁ due hrun => ?_) fun _ => ?_
  · cases hrun
    refine Ensures.try fun l s₂ a hfire => ?_
    have htimers : (s.dueTimers (msOf ch.now)).2.Agree s₂ .timers :=
      agree_runs within_fireTimers rfl hfire
    have hsub : s₂.timers.Sublist s.timers := by
      rw [htimers]
      exact filter_sublist
    have hs' : (s.dueTimers (msOf ch.now)).2.Resumable id key := hs
    have hdecides : Decides id t key ([(.now, .done), (.dueTimers (msOf ch.now), .done)] ++ l)
        s₂ := by
      by_cases hdue : id ∈ (s.dueList (msOf ch.now)).map Prod.fst
      · refine decides_claimed ?_ (fun x hx harea => ?_)
          (ensures_fireTimers (nodup_due hnodup) hdue hid hs' henc _ _ _ hfire)
        · rw [htimers]
          exact not_mem_dueTimers hdue
        · have hmem : [Area.own, .look, .group, .queue].contains x.1.area = true :=
            hfire.mem_log within_fireTimers x hx
          rw [harea] at hmem
          cases hmem
      · have helse := hfire.mem_log (elsewhere_fireTimers hdue)
        refine .inl ⟨?_, not_addedTo_of_elsewhere (forall_mem_append.2 ⟨elsewhere_due, helse⟩)⟩
        rw [htimers]
        exact timers_dueTimers ht hdue
    cases a with
    | error e => exact ⟨hdecides, hsub⟩
    | ok u =>
      refine ensures_done ?_
      rw [append_nil]
      exact ⟨hdecides, hsub⟩
  · cases hrun
    refine ensures_done ⟨?_, filter_sublist⟩
    by_cases hdue : id ∈ (s.dueList (msOf ch.now)).map Prod.fst
    · refine .inr ⟨not_mem_dueTimers hdue, iff_of_false (not_addedTo_of_elsewhere elsewhere_due) ?_⟩
      exact fun h => h (.inl ⟨_, .tail _ (.head _)⟩)
    · exact .inl ⟨timers_dueTimers ht hdue, not_addedTo_of_elsewhere elsewhere_due⟩
  · exact ensures_done ⟨.inl ⟨ht, not_addedTo_of_elsewhere elsewhere_due⟩, List.Sublist.refl _⟩

/-- A job to resume the instance was added to the stream of its key. -/
def Resumed (id : String) (key : ProcessKey) (s s' : Server B) : Prop :=
  ∃ new, s'.queued (encodeKey key) = s.queued (encodeKey key) ++ new ∧ ∃ e ∈ new,
    e.kind = .resume ∧ e.inst = id

lemma Grown.resumed_iff (h : Grown (encodeKey key) s s' log) :
    Resumed id key s s' ↔ AddedTo (encodeKey key) .resume id log := by
  obtain ⟨new, hnew, hiff⟩ := h
  rw [← hiff]
  constructor
  · rintro ⟨new', hnew', hmem⟩
    rwa [append_cancel_left (hnew.symm.trans hnew')]
  · exact fun hmem => ⟨new, hnew, hmem⟩

/-- The scheduler runs until the timer is gone: the job is there if and only if the round that
has claimed the timer was not spoiled. -/
lemma resumed_iff {logs : List (List (Cmd B × Fate))}
    (h : (service B).Until (moveTimers cfg b).run (fun s => id ∉ s.timers.map Prod.fst) s logs s')
    (hnodup : (s.timers.map Prod.fst).Nodup) (hid : id ≠ "") (hs : s.Resumable id key)
    (henc : cfg.codec.encodeJob ⟨key, .resume id⟩ = .ok env) (ht : (id, t) ∈ s.timers) :
    Resumed id key s s' ↔ ∀ log, logs.getLast? = some log → ¬ Spoiled id log := by
  have hgrown : Grown (encodeKey key) s s' logs.flatten ∧
      (AddedTo (encodeKey key) .resume id logs.flatten ↔ ∀ log, logs.getLast? = some log →
      ¬ Spoiled id log) := by
    induction h with
    | last h hstop =>
      rw [flatten_cons, flatten_nil, append_nil]
      refine ⟨grown_runs _ within_moveTimers rfl h, ?_⟩
      rcases (ensures_moveTimers hnodup hid hs henc ht _ _ _ h).1 with ⟨hstays, -⟩ | ⟨-, hiff⟩
      · exact absurd (mem_map_of_mem hstays) hstop
      · rw [hiff]
        simp
    | again h hstop hrest ih =>
      obtain ⟨hdecides, hsub⟩ := ensures_moveTimers hnodup hid hs henc ht _ _ _ h
      rcases hdecides with ⟨hstays, hnot⟩ | ⟨hgone, -⟩
      · obtain ⟨hgrown, hiff⟩ :=
          ih ((hsub.map _).nodup hnodup) (hs.of_agree (agree_runs within_moveTimers rfl h)) hstays
        rw [flatten_cons, addedTo_append, or_iff_right hnot, hiff]
        refine ⟨(grown_runs _ within_moveTimers rfl h).trans hgrown, ?_⟩
        cases hrest <;> rfl
      · exact absurd hgone hstop
  rw [hgrown.1.resumed_iff, hgrown.2]

end Redis

end Blkit
