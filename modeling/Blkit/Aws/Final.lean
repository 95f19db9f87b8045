import Blkit.Aws.Events

/-!
# The final event of an instance

The record of an instance is marked finished before the final event is published, and events
of a finished instance are dropped.  So when publishing fails, the report that is made again
publishes nothing, and subscribers wait for ever.
-/

namespace Blkit

namespace Aws

open Broker Prog List Service

variable {D B : Type} {codec : EventCodec D B} {id : String} {o : Outcome D}

/-- The instance is marked finished. -/
def Cloud.Finished (s : Cloud B) (id : String) : Prop :=
  (s.records id).any LastEvent.finished = true

/-- The final event was published, also if the broker was not told. -/
def FinalSent (id : String) (log : List (Cmd B × Fate)) : Prop :=
  ∃ x ∈ log, x.2.landed = true ∧ ∃ m, x.1 = .publish m ∧ m.inst = id ∧ m.final = true

/-- A failure after which the final event is not published any more. -/
def Harmful (id : String) (x : Cmd B × Fate) : Prop :=
  match x.1 with
  | .updateLastEvent inst _ _ finish => inst = id ∧ finish = true ∧ x.2 = .lost
  | .publish m => m.inst = id ∧ m.final = true ∧ x.2 = .failed
  | _ => False

variable {s s' : Cloud B} {log l l' : List (Cmd B × Fate)} {x : Cmd B × Fate}

lemma Harmful.not_done (h : Harmful id x) : x.2 ≠ .done := by
  obtain ⟨c, f⟩ := x
  rintro rfl
  cases c with
  | updateLastEvent _ _ _ _ | publish _ => exact nomatch h.2.2
  | _ => exact h

lemma finalSent_append : FinalSent id (l ++ l') ↔ FinalSent id l ∨ FinalSent id l' := by
  simp only [FinalSent, mem_append, or_and_right, exists_or]

/-! ## Commands that neither update a record nor publish -/

def Quiet : Cmd B → Prop
  | .updateLastEvent _ _ _ _ | .publish _ => False
  | _ => True

variable (id) in
/-- A log that has nothing to do with the final event. -/
def Idle (log : List (Cmd B × Fate)) : Prop := ¬ FinalSent id log ∧ ∀ x ∈ log, ¬ Harmful id x

lemma idle_append : Idle id (l ++ l') ↔ Idle id l ∧ Idle id l' := by
  rw [Idle, finalSent_append, not_or, forall_mem_append, Idle, Idle]
  exact and_and_and_comm

lemma idle_of_quiet (h : ∀ x ∈ log, Quiet x.1) : Idle id log := by
  refine ⟨?_, fun x hx hharm => ?_⟩
  · rintro ⟨x, hx, -, m, hcmd, -⟩
    have hq := h x hx
    rw [hcmd] at hq
    exact hq
  · have hq := h x hx
    obtain ⟨c, f⟩ := x
    cases c with
    | updateLastEvent _ _ _ _ | publish _ => exact hq
    | _ => exact hharm

lemma Quiet.run {c : Cmd B} {ch : Bool × Int} {r : c.Reply} (hc : Quiet c)
    (h : s.run c ch = some (s', r)) :
    s'.topic = s.topic ∧ s'.records = s.records := by
  cases c with
  | updateLastEvent _ _ _ _ | publish _ => exact hc.elim
  | _ =>
    cases h
    exact ⟨rfl, rfl⟩

variable {α : Type}

lemma quiet_runs (id : String) {x : Act B α} {a : Except Failure α} (hx : Issues Quiet x)
    (h : (service B).Runs x.run s log s' a) : s'.records = s.records ∧ Idle id log := by
  refine ⟨?_, idle_of_quiet (h.mem_log hx)⟩
  exact h.keeps (I := fun (s₁ : Cloud B) _ => s₁.records = s.records) hx
    (fun _ _ _ _ _ _ _ hc hrun _ hI => (hc.run hrun).2.trans hI) (fun _ _ _ hI => hI) rfl

lemma issues_checkOpen : Issues Quiet (checkOpen : Act B Unit) := by
  refine Issues.bind (issues_must trivial) fun alive => Issues.bind ?_ fun _ =>
    Issues.bind (issues_must trivial) fun op => ?_
  · cases alive with
    | true => exact issues_pure
    | false => exact issues_throw
  · cases op with
    | true => exact issues_pure
    | false => exact issues_throw

variable {receipts : List ℕ}

lemma issues_deleteAll : Issues Quiet (deleteAll receipts : Act B Unit) := by
  induction receipts with
  | nil => exact issues_pure
  | cons receipt rest ih => exact Issues.bind (issues_attempt trivial) fun _ => ih

variable {inst : String}

lemma issues_settleInstance : Issues Quiet (settleInstance inst : Act B Unit) :=
  Issues.bind (issues_must trivial) fun _ => issues_deleteAll

lemma ensures_deleteAll :
    (service B).Ensures (deleteAll receipts : Act B Unit).run s fun _ _ a => a = .ok () := by
  induction receipts generalizing s with
  | nil => exact ensures_done rfl
  | cons receipt rest ih =>
    refine Ensures.try fun l s₁ a hdelete => ?_
    obtain ⟨f, r, rfl, rfl⟩ := ensures_attempt _ _ _ hdelete
    exact ih

lemma ensures_settleInstance :
    (service B).Ensures (settleInstance inst : Act B Unit).run s fun _ _ a => a = .ok () :=
  ensures_ask (fun _ _ _ _ => ensures_deleteAll) nofun nofun

/-! ## Publishing one event -/

section Publish

variable {body : EventBody D} {d : Disposition} {corr : Option String}

variable {latest terminal : Option B} {finish : Bool}

lemma finished_update :
    (s.updateLastEvent id latest terminal finish).Finished id ↔ s.Finished id ∨ finish := by
  rw [Cloud.Finished, Cloud.updateLastEvent, Cloud.Finished]
  simp only [Function.update_self, Option.any_some, Bool.or_eq_true, Cloud.record]
  cases s.records id <;> simp

variable {f : Fate}

lemma idle_look : Idle id [((.getLastEvent id : Cmd B), f)] :=
  idle_of_quiet (forall_mem_singleton.2 trivial)

/-- Events of a finished instance are dropped. -/
lemma ensures_publishEvent_dropped (hs : s.Finished id) :
    (service B).Ensures (publishEvent codec id body d).run s fun l s' _ =>
      s'.Finished id ∧ Idle id l := by
  refine ensures_ask (fun ch s₁ last hrun => ?_) (fun _ ch s₁ last hrun => ?_) fun _ => ?_
  · cases hrun
    show (service B).Ensures
      (if (s.records id).any LastEvent.finished then (pure () : Act B Unit) else _).run s _
    rw [if_pos (show (s.records id).any LastEvent.finished = true from hs)]
    exact ensures_done ⟨hs, idle_look⟩
  · cases hrun
    exact ensures_done ⟨hs, idle_look⟩
  · exact ensures_done ⟨hs, idle_look⟩

variable (id) in
/-- How publishing an event goes if the instance is not finished: nothing is changed, the record
is updated and the broker is not told, or it is updated and then a message may be published. -/
inductive Stamped (final : Bool) (s : Cloud B) : List (Cmd B × Fate) → Cloud B → Bool → Prop
  | unread {l : List (Cmd B × Fate)} (hl : ∀ x ∈ l, Quiet x.1) : Stamped final s l s false
  | failed {l : List (Cmd B × Fate)} {latest terminal : Option B} (hl : ∀ x ∈ l, Quiet x.1) :
      Stamped final s (l ++ [(.updateLastEvent id latest terminal final, .failed)]) s false
  | lost {l : List (Cmd B × Fate)} {latest terminal : Option B} (hl : ∀ x ∈ l, Quiet x.1) :
      Stamped final s (l ++ [(.updateLastEvent id latest terminal final, .lost)])
        (s.updateLastEvent id latest terminal final) false
  | unsent {l : List (Cmd B × Fate)} {latest terminal : Option B}
      {m : Message B} (hl : ∀ x ∈ l, Quiet x.1)
      (hinst : m.inst = id) (hfinal : m.final = final) :
      Stamped final s
        (l ++ [(.updateLastEvent id latest terminal final, .done), (.publish m, .failed)])
        (s.updateLastEvent id latest terminal final) false
  | sent {l : List (Cmd B × Fate)} {latest terminal : Option B} {m : Message B}
      {topic : List (Message B)} {f : Fate}
      (hl : ∀ x ∈ l, Quiet x.1) (hinst : m.inst = id) (hfinal : m.final = final)
        (hf : f.landed = true) :
      Stamped final s (l ++ [(.updateLastEvent id latest terminal final, .done), (.publish m, f)])
        { s.updateLastEvent id latest terminal final with topic := topic } (f = .done)

variable {ok : Bool}

lemma Stamped.cons {final : Bool} (h : Stamped id final s l s' ok) (hx : Quiet x.1) :
    Stamped id final s (x :: l) s' ok := by
  have hcons {l : List (Cmd B × Fate)} (hl : ∀ y ∈ l, Quiet y.1) : ∀ y ∈ x :: l, Quiet y.1 :=
    forall_mem_cons.2 ⟨hx, hl⟩
  cases h with
  | unread hl => exact .unread (hcons hl)
  | failed hl => exact .failed (hcons hl)
  | lost hl => exact .lost (hcons hl)
  | unsent hl hinst hfinal => exact .unsent (hcons hl) hinst hfinal
  | sent hl hinst hfinal hf => exact .sent (hcons hl) hinst hfinal hf

lemma ensures_publishStamped :
    (service B).Ensures (publishStamped codec id corr body d).run s fun l s' a =>
      Stamped id d.final s l s' a.isOk := by
  have hl : ∀ x ∈ [((.now : Cmd B), Fate.done)], Quiet x.1 := forall_mem_singleton.2 trivial
  refine ensures_ask (fun ch s₁ now hrun => ?_) nofun nofun
  cases hrun
  show (service B).Ensures (orThrow .encode (codec.encode ⟨id, corr, body, ch.2⟩) >>=
    _ : Act B Unit).run s _
  cases codec.encode ⟨id, corr, body, ch.2⟩ with
  | error msg => exact ensures_done (.unread hl)
  | ok env =>
    refine ensures_ask (fun ch s₁ seq hrun => ?_) (fun _ ch s₁ seq hrun => ?_) fun _ => ?_
    · cases hrun
      refine ensures_ask (fun ch s₁ r hrun => ?_) (fun _ ch s₁ r hrun => ?_) fun _ => ?_
      · cases hrun
        exact ensures_done (.sent hl rfl rfl rfl)
      · cases hrun
        exact ensures_done (.sent hl rfl rfl rfl)
      · exact ensures_done (.unsent hl rfl rfl)
    · cases hrun
      exact ensures_done (.lost hl)
    · exact ensures_done (.failed hl)

/-- `publishEvent` for an instance that is not finished. -/
lemma ensures_publishEvent (hs : ¬ s.Finished id) :
    (service B).Ensures (publishEvent codec id body d).run s fun l s' a =>
      Stamped id d.final s l s' a.isOk := by
  have hlook {f : Fate} : ∀ x ∈ [((.getLastEvent id : Cmd B), f)], Quiet x.1 :=
    forall_mem_singleton.2 trivial
  refine ensures_ask (fun ch s₁ last hrun => ?_) (fun _ ch s₁ last hrun => ?_) fun _ => ?_
  · cases hrun
    show (service B).Ensures
      (if (s.records id).any LastEvent.finished then (pure () : Act B Unit) else _).run s _
    rw [if_neg (show ¬ (s.records id).any LastEvent.finished = true from hs)]
    exact fun l s' a h => (ensures_publishStamped l s' a h).cons trivial
  · cases hrun
    exact ensures_done (.unread hlook)
  · exact ensures_done (.unread hlook)

lemma not_finalSent_update :
    ¬ FinalSent id [((.updateLastEvent id latest terminal finish : Cmd B), f)] := by
  rintro ⟨x, hx, -, m, hcmd, -⟩
  rw [mem_singleton.1 hx] at hcmd
  cases hcmd

lemma idle_update (h : finish = false ∨ f ≠ .lost) :
    Idle id [((.updateLastEvent id latest terminal finish : Cmd B), f)] := by
  refine ⟨not_finalSent_update, forall_mem_singleton.2 ?_⟩
  rintro ⟨-, rfl, rfl⟩
  exact h.elim nofun fun h => h rfl

variable {m : Message B}

lemma finalSent_publish (hinst : m.inst = id) :
    FinalSent id [((.publish m : Cmd B), f)] ↔ f.landed ∧ m.final := by
  constructor
  · rintro ⟨x, hx, hf, m', hcmd, -, hfinal⟩
    rw [mem_singleton.1 hx] at hf hcmd
    cases hcmd
    exact ⟨hf, hfinal⟩
  · rintro ⟨hf, hfinal⟩
    exact ⟨_, .head _, hf, m, rfl, hinst, hfinal⟩

lemma idle_publish (hinst : m.inst = id) (hfinal : m.final = false) :
    Idle id [((.publish m : Cmd B), f)] := by
  refine ⟨fun h => ?_, forall_mem_singleton.2 fun h => ?_⟩
  · have hfinal' := ((finalSent_publish hinst).1 h).2
    rw [hfinal] at hfinal'
    cases hfinal'
  · have hfinal' := h.2.1
    rw [hfinal] at hfinal'
    cases hfinal'

/-- An event that is not the final one. -/
lemma Stamped.unfinished (h : Stamped id false s l s' ok) (hs : ¬ s.Finished id) :
    ¬ s'.Finished id ∧ Idle id l := by
  have hupdate {latest terminal : Option B} :
      ¬ (s.updateLastEvent id latest terminal false).Finished id := by
    rw [finished_update, not_or]
    exact ⟨hs, nofun⟩
  cases h with
  | unread hl => exact ⟨hs, idle_of_quiet hl⟩
  | failed hl => exact ⟨hs, idle_append.2 ⟨idle_of_quiet hl, idle_update (.inl rfl)⟩⟩
  | lost hl => exact ⟨hupdate, idle_append.2 ⟨idle_of_quiet hl, idle_update (.inl rfl)⟩⟩
  | unsent hl hinst hfinal | sent hl hinst hfinal hf =>
    exact ⟨hupdate,
      idle_append.2 ⟨idle_of_quiet hl,
      (idle_append (l := [_])).2 ⟨idle_update (.inl rfl), idle_publish hinst hfinal⟩⟩⟩

variable (id) in
/-- What has come of publishing the final event. -/
def Attempted (l : List (Cmd B × Fate)) (s' : Cloud B) (ok : Bool) : Prop :=
  ¬ s'.Finished id ∧ ok = false ∧ Idle id l ∨
    s'.Finished id ∧ (FinalSent id l ↔ ∀ x ∈ l, ¬ Harmful id x) ∧ (ok = true ∨ ∃ x ∈ l, x.2 ≠ .done)

/-- Commands before the others that have nothing to do with it. -/
lemma Attempted.after (h : Attempted id l' s' ok) (hl : Idle id l) :
    Attempted id (l ++ l') s' ok := by
  rcases h with ⟨hs, hok, hidle⟩ | ⟨hs, hiff, hfail⟩
  · exact .inl ⟨hs, hok, idle_append.2 ⟨hl, hidle⟩⟩
  · refine .inr ⟨hs, ?_, hfail.imp_right fun ⟨x, hx, hne⟩ => ⟨x, mem_append_right _ hx, hne⟩⟩
    rw [finalSent_append, or_iff_right hl.1, hiff, forall_mem_append, and_iff_right hl.2]

lemma Attempted.cons (h : Attempted id l s' ok) (hx : Idle id [x]) : Attempted id (x :: l) s' ok :=
  h.after hx

/-- The final event. -/
lemma Stamped.final (h : Stamped id true s l s' ok) (hs : ¬ s.Finished id) :
    Attempted id l s' ok := by
  have hupdate {latest terminal : Option B} :
      (s.updateLastEvent id latest terminal true).Finished id :=
    finished_update.2 (.inr rfl)
  cases h with
  | unread hl => exact .inl ⟨hs, rfl, idle_of_quiet hl⟩
  | failed hl => exact .inl ⟨hs, rfl, idle_append.2 ⟨idle_of_quiet hl, idle_update (.inr nofun)⟩⟩
  | lost hl =>
    refine Attempted.after
      (.inr ⟨hupdate, iff_of_false not_finalSent_update ?_, .inr ⟨_, .head _, nofun⟩⟩)
        (idle_of_quiet hl)
    exact fun h => h _ (.head _) ⟨rfl, rfl, rfl⟩
  | unsent hl hinst hfinal =>
    refine Attempted.after
      (Attempted.cons (.inr ⟨hupdate, iff_of_false ?_ ?_, .inr ⟨_, .head _, ?_⟩⟩)
        (idle_update (.inr ?_)))
      (idle_of_quiet hl)
    · exact fun h => nomatch ((finalSent_publish hinst).1 h).1
    · exact fun h => h _ (.head _) ⟨hinst, hfinal, rfl⟩
    · nofun
    · nofun
  | @sent _ _ _ _ _ f hl hinst hfinal hf =>
    refine Attempted.after (Attempted.cons (.inr ⟨hupdate, iff_of_true ?_ ?_, ?_⟩)
      (idle_update (.inr ?_))) (idle_of_quiet hl)
    · exact (finalSent_publish hinst).2 ⟨hf, hfinal⟩
    · refine forall_mem_singleton.2 fun h => ?_
      obtain rfl : f = .failed := h.2.2
      cases hf
    · cases f with
      | done => exact .inl rfl
      | lost => exact .inr ⟨_, .head _, nofun⟩
      | failed => cases hf
    · nofun

end Publish

/-! ## Reports -/

/-- After the events the report goes on, and cannot fail any more. -/
lemma Attempted.settled {s₁ s₂ : Cloud B} (h : Attempted id l s₁ true)
    (hs : s₂.records = s₁.records) (hl : Idle id l') :
    Attempted id (l ++ l') s₂ true := by
  rcases h with ⟨-, hok, -⟩ | ⟨hs', hiff, -⟩
  · cases hok
  · refine .inr ⟨?_, ?_, .inl rfl⟩
    · rw [Cloud.Finished, hs]
      exact hs'
    · rw [finalSent_append, or_iff_left hl.1, hiff, forall_mem_append, and_iff_left hl.2]

lemma ensures_publishEnd (hs : ¬ s.Finished id) :
    (service B).Ensures (publishEnd codec id o).run s fun l s' a => Attempted id l s' a.isOk := by
  rw [publishEnd]
  split
  · exact fun l s' a h => (ensures_publishEvent hs l s' a h).final hs
  · refine Ensures.try fun l s₁ a hfirst => ?_
    obtain ⟨hs₁, hidle⟩ := (ensures_publishEvent hs l s₁ a hfirst).unfinished hs
    cases a with
    | error e => exact .inl ⟨hs₁, rfl, hidle⟩
    | ok u => exact fun l' s' a h => ((ensures_publishEvent hs₁ l' s' a h).final hs₁).after hidle

lemma ensures_reportEnd (hs : ¬ s.Finished id) :
    (service B).Ensures (reportEnd codec id o).run s fun l s' a => Attempted id l s' a.isOk := by
  refine Ensures.try fun l s₁ a hcheck => ?_
  obtain ⟨hrecords, hidle⟩ := quiet_runs id issues_checkOpen hcheck
  have hs₁ : ¬ s₁.Finished id := by rwa [Cloud.Finished, hrecords]
  cases a with
  | error e => exact .inl ⟨hs₁, rfl, hidle⟩
  | ok u =>
    refine Ensures.try fun l' s₂ a hpublish => ?_
    have hattempt := ensures_publishEnd hs₁ _ _ _ hpublish
    cases a with
    | error e => exact hattempt.after hidle
    | ok u =>
      intro l'' s₃ a hsettle
      obtain ⟨hrecords', hidle'⟩ := quiet_runs id issues_settleInstance hsettle
      obtain rfl : a = .ok () := ensures_settleInstance _ _ _ hsettle
      exact (hattempt.settled hrecords' hidle').after hidle

/-- A report for an instance that is finished already. -/
lemma ensures_reportEnd_late (hs : s.Finished id) :
    (service B).Ensures (reportEnd codec id o).run s fun l s' _ => s'.Finished id ∧ Idle id l := by
  have hquiet {α : Type} {x : Act B α} {s s₁ : Cloud B} {l : List (Cmd B × Fate)}
      {a : Except Failure α} (hx : Issues Quiet x)
      (hs : s.Finished id) (h : (service B).Runs x.run s l s₁ a) : s₁.Finished id ∧ Idle id l := by
    obtain ⟨hrecords, hidle⟩ := quiet_runs id hx h
    exact ⟨by rwa [Cloud.Finished, hrecords], hidle⟩
  have hpublish {s : Cloud B} (hs : s.Finished id) :
      (service B).Ensures (publishEnd codec id o).run s fun l s' _ =>
        s'.Finished id ∧ Idle id l := by
    rw [publishEnd]
    split
    · exact ensures_publishEvent_dropped hs
    · refine Ensures.try fun l s₁ a hfirst => ?_
      obtain ⟨hs₁, hidle⟩ := ensures_publishEvent_dropped hs _ _ _ hfirst
      cases a with
      | error e => exact ⟨hs₁, hidle⟩
      | ok u => exact fun l' s' a h => (ensures_publishEvent_dropped hs₁ _ _ _ h).imp_right fun h =>
        idle_append.2 ⟨hidle, h⟩
  refine Ensures.try fun l s₁ a hcheck => ?_
  obtain ⟨hs₁, hidle⟩ := hquiet issues_checkOpen hs hcheck
  cases a with
  | error e => exact ⟨hs₁, hidle⟩
  | ok u =>
    refine Ensures.try fun l' s₂ a hend => ?_
    obtain ⟨hs₂, hidle'⟩ := hpublish hs₁ _ _ _ hend
    cases a with
    | error e => exact ⟨hs₂, idle_append.2 ⟨hidle, hidle'⟩⟩
    | ok u =>
      intro l'' s₃ a hsettle
      obtain ⟨hs₃, hidle''⟩ := hquiet issues_settleInstance hs₂ hsettle
      exact ⟨hs₃, idle_append.2 ⟨hidle, idle_append.2 ⟨hidle', hidle''⟩⟩⟩

/-- The mark is set before the final event is published. -/
lemma marks_reportEnd : Marks (service B) (reportEnd codec id o).run (fun s => s.Finished id)
    (fun _ l _ => FinalSent id l) (Harmful id) where
  failed _ hharm := hharm.not_done
  first s log s' a hs h := by
    rcases ensures_reportEnd hs _ _ _ h with ⟨hs', hok, hidle⟩ | ⟨hs', hiff, hok⟩
    · refine .inl ⟨hs', fun u hu => ?_, hidle.2, fun l _ => ?_⟩
      · rw [hu] at hok
        cases hok
      · rw [finalSent_append, or_iff_right hidle.1]
    · refine .inr ⟨hs', hiff, hok.imp_left fun hok => ?_⟩
      cases a with
      | ok u => exact ⟨u, rfl⟩
      | error e => cases hok
  later s log s' a hs hall h := by
    obtain ⟨hs', hidle⟩ := ensures_reportEnd_late hs _ _ _ h
    refine ⟨hs', fun _ l => ?_⟩
    rw [finalSent_append, or_iff_left hidle.1]

/-! ## What is published -/

/-- The message of a command, if it was published. -/
def sentBy : Cmd B × Fate → Option (Message B)
  | (.publish _, .failed) => none
  | (.publish m, _) => some m
  | _ => none

/-- The messages that were published. -/
def sent (log : List (Cmd B × Fate)) : List (Message B) := log.filterMap sentBy

lemma sent_append : sent (l ++ l') = sent l ++ sent l' := filterMap_append

lemma finalSent_iff : FinalSent id log ↔ ∃ m ∈ sent log, m.inst = id ∧ m.final := by
  constructor
  · rintro ⟨⟨c, f⟩, hx, hf, m, rfl, hm⟩
    refine ⟨m, mem_filterMap.2 ⟨_, hx, ?_⟩, hm⟩
    cases f with
    | failed => cases hf
    | _ => rfl
  · rintro ⟨m, hmem, hm⟩
    obtain ⟨⟨c, f⟩, hx, hsent⟩ := mem_filterMap.1 hmem
    cases c with
    | publish m' =>
      cases f with
      | failed => cases hsent
      | done | lost =>
        cases hsent
        exact ⟨_, hx, rfl, m, rfl, hm⟩
    | _ => cases hsent

/-- The last event of an instance. -/
def finalBody (o : Outcome D) : EventBody D := o.extra.getD (.lifecycle o.phase)

variable (codec id o) in
/-- Messages carry the number that was allotted last; the final one carries the final event. -/
def numbering : Protocol (Option ℕ) (Cmd B) Cmd.Reply := fun q c r q' =>
  match c, r with
  | .updateLastEvent inst _ _ _, r => inst = id ∧ q' = r
  | .publish m, _ => m.inst = id ∧ q = some m.seq ∧ q' = none ∧
    (m.final = true → ∃ corr now, codec.encode ⟨id, corr, finalBody o, now⟩ = .ok m.body)
  | _, _ => q' = q

lemma still_quiet {x : Act B α} (hx : Issues Quiet x) : Still (numbering codec id o) x := by
  refine hx.still fun c hc q r => ?_
  cases c with
  | updateLastEvent _ _ _ _ | publish _ => exact hc.elim
  | _ => rfl

variable {q : Option ℕ}

lemma obeys_publishEvent {body : EventBody D} {d : Disposition}
    (hd : d.final → body = finalBody o) :
    Obeys (numbering codec id o) (fun _ _ => True) q (publishEvent codec id body d).run := by
  intro last
  refine ⟨q, rfl, ?_⟩
  cases last with
  | none => trivial
  | some last =>
    show Obeys _ _ q (if last.any LastEvent.finished then (pure () : Act B Unit) else
      publishStamped codec id (last.bind LastEvent.corr) body d).run
    split
    · trivial
    · intro now
      refine ⟨q, rfl, ?_⟩
      cases now with
      | none => trivial
      | some now =>
        show Obeys _ _ q
          (orThrow .encode (codec.encode ⟨id, last.bind LastEvent.corr, body, now⟩) >>=
            _ : Act B Unit).run
        cases henc : codec.encode ⟨id, last.bind LastEvent.corr, body, now⟩ with
        | error msg => trivial
        | ok env =>
          intro seq
          refine ⟨seq, ⟨rfl, rfl⟩, ?_⟩
          cases seq with
          | none => trivial
          | some seq =>
            intro r
            refine ⟨none, ⟨rfl, rfl, rfl, fun hfinal => ?_⟩, ?_⟩
            · rw [← hd hfinal]
              exact ⟨_, _, henc⟩
            · cases r <;> trivial

lemma obeys_publishEnd :
    Obeys (numbering codec id o) (fun _ _ => True) q (publishEnd codec id o).run := by
  rw [publishEnd]
  split
  · rename_i hextra
    refine obeys_publishEvent fun _ => ?_
    rw [finalBody, hextra]
    rfl
  · rename_i body hextra
    refine obeys_try.2 (Obeys.mono (obeys_publishEvent ?_) ?_)
    · nofun
    · rintro q (e | u) -
      · trivial
      · refine obeys_publishEvent fun _ => ?_
        rw [finalBody, hextra]
        rfl

lemma obeys_reportEnd : Obeys (numbering codec id o) (fun _ _ => True) none
    (reportEnd codec id o).run := by
  refine (still_quiet issues_checkOpen).obeys (fun _ => ?_) fun _ => trivial
  refine obeys_try.2 (obeys_publishEnd.mono ?_)
  rintro q (e | u) -
  · trivial
  · exact (still_quiet issues_settleInstance q).mono fun _ _ _ => trivial

variable (codec id o) in
/-- What was published, and how it is numbered. -/
structure Numbered (s₀ : Cloud B) (q : Option ℕ) (s : Cloud B) (l : List (Cmd B × Fate)) :
    Prop where
  topic : s.topic = s₀.topic ++ sent l
  inst : ∀ m ∈ sent l, m.inst = id
  final : ∀ m ∈ sent l, m.final = true → ∃ corr now,
    codec.encode ⟨id, corr, finalBody o, now⟩ = .ok m.body
  nodup : ((sent l).map Message.seq).Nodup
  range : ∀ m ∈ sent l, (s₀.record id).seq < m.seq ∧ m.seq ≤ (s.record id).seq
  base : (s₀.record id).seq ≤ (s.record id).seq
  next : ∀ n, q = some n → (s₀.record id).seq < n ∧ n ≤ (s.record id).seq ∧ ∀ m ∈ sent l, m.seq < n

namespace Numbered

variable {s₀ : Cloud B} {q q' : Option ℕ} {m : Message B}

lemma refl : Numbered codec id o s none s [] :=
  ⟨(append_nil _).symm, nofun, nofun, nodup_nil, nofun, Nat.le_refl _, nofun⟩

lemma reset (h : Numbered codec id o s₀ q s l) : Numbered codec id o s₀ none s l :=
  { h with next := nofun }

/-- Nothing is published. -/
lemma silent (h : Numbered codec id o s₀ q s l) (htopic : s'.topic = s.topic)
    (hseq : (s.record id).seq ≤ (s'.record id).seq)
    (hx : sentBy x = none) (hq : ∀ n, q' = some n → (s₀.record id).seq < n ∧
      n ≤ (s'.record id).seq ∧ ∀ m ∈ sent l, m.seq < n) :
    Numbered codec id o s₀ q' s' (l ++ [x]) := by
  have hsent : sent (l ++ [x]) = sent l := by
    rw [sent_append, show sent [x] = [] from filterMap_cons_none hx, append_nil]
  rw [← hsent] at hq
  exact ⟨by rw [htopic, hsent, h.topic], hsent ▸ h.inst, hsent ▸ h.final, hsent ▸ h.nodup,
    hsent ▸ fun m hm => (h.range m hm).imp_right hseq.trans', h.base.trans hseq, hq⟩

/-- The record stays, too. -/
lemma quiet (h : Numbered codec id o s₀ q s l) (hs : s'.topic = s.topic ∧ s'.records = s.records)
    (hx : sentBy x = none) : Numbered codec id o s₀ q s' (l ++ [x]) := by
  have hrecord : s'.record id = s.record id := by rw [Cloud.record, hs.2, Cloud.record]
  exact h.silent hs.1 (congrArg LastEvent.seq hrecord).ge hx (hrecord ▸ h.next)

variable {latest terminal : Option B} {finish : Bool}

lemma seq_update :
    ((s.updateLastEvent id latest terminal finish).record id).seq = (s.record id).seq + 1 := by
  rw [Cloud.record, Cloud.updateLastEvent]
  simp

variable {f : Fate}

/-- A number is allotted, whether the broker is told or not. -/
lemma update (h : Numbered codec id o s₀ q s l)
    (hn : ∀ n, q' = some n → n = (s.record id).seq + 1) :
    Numbered codec id o s₀ q' (s.updateLastEvent id latest terminal finish)
      (l ++ [(.updateLastEvent id latest terminal finish, f)]) := by
  refine h.silent rfl (seq_update ▸ Nat.le_succ _) rfl fun n hq => ?_
  rw [seq_update, hn n hq]
  exact ⟨Nat.lt_succ_of_le h.base, Nat.le_refl _, fun m hm => Nat.lt_succ_of_le (h.range m hm).2⟩

/-- A message is published with the number that was allotted. -/
lemma publish (h : Numbered codec id o s₀ (some m.seq) s l) (hinst : m.inst = id)
    (hfinal : m.final → ∃ corr now, codec.encode ⟨id, corr, finalBody o, now⟩ = .ok m.body)
    (hf : sentBy ((.publish m : Cmd B), f) = some m) :
    Numbered codec id o s₀ none { s with topic := s.topic ++ [m] } (l ++ [(.publish m, f)]) := by
  have hsent : sent (l ++ [(.publish m, f)]) = sent l ++ [m] := by
    rw [sent_append]
    exact congrArg _ (filterMap_cons_some hf)
  obtain ⟨hlow, hhigh, hlt⟩ := h.next m.seq rfl
  refine ⟨?_, ?_, ?_, ?_, ?_, h.base, nofun⟩
  · rw [hsent, ← append_assoc, ← h.topic]
  · rw [hsent]
    exact forall_mem_append.2 ⟨h.inst, forall_mem_singleton.2 hinst⟩
  · rw [hsent]
    exact forall_mem_append.2 ⟨h.final, forall_mem_singleton.2 hfinal⟩
  · rw [hsent, map_append, map_singleton, nodup_append]
    refine ⟨h.nodup, nodup_singleton _, ?_⟩
    rintro _ hn _ hm rfl
    obtain ⟨m', hm', heq⟩ := mem_map.1 hn
    rw [mem_singleton.1 hm] at heq
    exact absurd heq (Nat.ne_of_lt (hlt m' hm'))
  · rw [hsent]
    exact forall_mem_append.2 ⟨h.range, forall_mem_singleton.2 ⟨hlow, hhigh⟩⟩

end Numbered

lemma upholds_numbered {s₀ : Cloud B} :
    Upholds (service B) (numbering codec id o) (Numbered codec id o s₀) := by
  have hstep {q q' s s' l c ch r} {a : Option (Cmd.Reply c)} {f : Fate} (hf : f ≠ .failed)
      (hrun : (service B).run s c ch = some (s', r)) (ha : ∀ x, a = some x → x = r)
      (hN : numbering codec id o q c a q') (h : Numbered codec id o s₀ q s l) :
      Numbered codec id o s₀ q' s' (l ++ [(c, f)]) := by
    have hquiet : Quiet c → s'.topic = s.topic ∧ s'.records = s.records := fun hc => hc.run hrun
    cases c with
    | updateLastEvent inst latest terminal finish =>
      obtain ⟨rfl, rfl⟩ := hN
      cases hrun
      exact h.update ha
    | publish m =>
      obtain ⟨hinst, rfl, rfl, hfinal⟩ := hN
      cases hrun
      exact h.publish hinst hfinal (by cases f <;> trivial)
    | _ =>
      obtain rfl : q' = q := hN
      exact h.quiet (hquiet trivial) rfl
  refine ⟨fun q s l c ch s' r q' hrun => hstep nofun hrun fun x h => (Option.some.inj h).symm,
    fun q s l c ch s' r q' hc hrun => hstep nofun hrun (a := none) nofun,
    fun q s l c q' hc hN h => ?_⟩
  · cases c with
    | updateLastEvent inst latest terminal finish =>
      obtain ⟨rfl, rfl⟩ := hN
      exact h.reset.quiet ⟨rfl, rfl⟩ rfl
    | publish m =>
      obtain ⟨hinst, rfl, rfl, hfinal⟩ := hN
      exact h.reset.quiet ⟨rfl, rfl⟩ rfl
    | _ =>
      obtain rfl : q' = q := hN
      exact h.quiet ⟨rfl, rfl⟩ rfl

end Aws

end Blkit
