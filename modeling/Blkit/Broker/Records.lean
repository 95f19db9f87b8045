import Blkit.Broker.World
import Mathlib.Logic.Relation

/-!
# Records and subscribers over whole runs

Every action is a sequence of operations on the topics, and an operation changes a record,
or a subscriber, in one of a few ways.  A property of records (`Keeps`) or of subscribers
(`SubKeeps`) that each of these ways keeps therefore holds in every run.

The first use is the end of an instance: a record is finished once, has no subscribers from
then on, and the channel of a subscriber is closed once, with nothing sent on it afterwards.
-/

namespace Blkit

namespace Broker

open Relation List Function

variable {D : Type} {t t' : Topics D} {r : Instance D} {evt : InstanceEvent D}

/-! ## What is published -/

/-- Neither the end of an instance nor a result. -/
def EventBody.Plain : EventBody D → Prop
  | .lifecycle phase => phase.Terminal = false
  | .result _ => False
  | _ => True

namespace Topics

variable {wire : Wire D} {now : Int} {id : String} {body : EventBody D}

/-- The wire changes the data of an event alone. -/
lemma body_stamp (t : Topics D) (wire : Wire D) (now : Int) (id : String) (body : EventBody D) :
    ∃ f, (t.stamp wire now id body).body = body.map f := by
  obtain ⟨f, hf⟩ := wire.event_map ⟨id, (t.recordLocked id).correlationKey, body, now⟩
  refine ⟨f, ?_⟩
  rw [stamp, hf]
  rfl

lemma body_stamp_lifecycle {phase : ProcessStatus} : (t.stamp wire now id (.lifecycle phase)).body =
    .lifecycle phase := by
  obtain ⟨f, hf⟩ := t.body_stamp wire now id (.lifecycle phase)
  exact hf

end Topics

namespace Instance

@[simp] lemma finished_retain : (r.retain evt).finished = r.finished := by
  rw [retain]
  split
  any_goals rfl
  split <;> rfl

@[simp] lemma subs_retain : (r.retain evt).subs = r.subs := by
  rw [retain]
  split
  any_goals rfl
  split <;> rfl

@[simp] lemma key_retain : (r.retain evt).key = r.key := by
  rw [retain]
  split
  any_goals rfl
  split <;> rfl

@[simp] lemma correlationKey_retain : (r.retain evt).correlationKey = r.correlationKey := by
  rw [retain]
  split
  any_goals rfl
  split <;> rfl

@[simp] lemma submitted_retain : (r.retain evt).submitted = r.submitted := by
  rw [retain]
  split
  any_goals rfl
  split <;> rfl

@[simp] lemma published_retain : (r.retain evt).published = r.published ++ [evt] := by
  rw [retain]
  split
  any_goals rfl
  split <;> rfl

/-- A record that ends with an event and, it may be, another one. -/
def finish (r : Instance D) (e : InstanceEvent D) (extra : Option (InstanceEvent D))
    (expiresAt : Int) : Instance D :=
  { extra.elim (r.retain e) (r.retain e).retain with
    finished := true, expiresAt := expiresAt, subs := [] }

end Instance

/-- A subscriber that is sent these events and closed. -/
def Sub.finish (s : Sub D) (e : InstanceEvent D) (extra : Option (InstanceEvent D))
    (marker : InstanceEvent D)
    (pace pace' : ℕ × ℕ) : Sub D :=
  { (extra.elim (s.send e marker pace) fun x => (s.send e marker pace).send
    x marker pace').close with
    ending := some (e :: extra.toList) }

namespace Topics

variable {wire : Wire D} {now retention : Int} {pace pace' : Pace} {id : String}
  {body : EventBody D} {o : Outcome D}

/-- The event with the outcome, as it is published. -/
def extraEvent (t : Topics D) (wire : Wire D) (now : Int) (id : String) (o : Outcome D) :
    Option (InstanceEvent D) :=
  o.extra.map (t.stamp wire now id)

lemma outcomeEvents_eq :
    t.outcomeEvents wire now id o = t.stamp wire now id (.lifecycle o.phase) ::
      (t.extraEvent wire now id o).toList := rfl

lemma recordLocked_publish : (t.publishLocked wire now pace id body).recordLocked id =
    (t.recordLocked id).retain (t.stamp wire now id body) := by
  show (update t.insts id (some _) id).getD _ = _
  rw [update_self]
  rfl

lemma stamp_publish {body' : EventBody D} :
    (t.publishLocked wire now pace id body).stamp wire now id body' =
      t.stamp wire now id body' := by
  rw [stamp, recordLocked_publish, Instance.correlationKey_retain]
  rfl

/-- The end of a record that one event, or two, were published on. -/
lemma endLocked_publish {t₁ : Topics D} {r r₁ : Instance D} {f : ℕ → Sub D → Sub D}
    {expiresAt : Int} {outcome : List (InstanceEvent D)}
    (hinsts : t₁.insts = update t.insts id (some r₁))
    (hsubs : t₁.subs = t.subs.mapIdx fun i s => if i ∈ r.subs then f i s else s)
    (hended : t₁.ended = t.ended)
    (hr : r₁.subs = r.subs) :
    t₁.endLocked id expiresAt outcome =
      { insts := update t.insts id
          (some { r₁ with finished := true, expiresAt := expiresAt, subs := [] })
        subs := t.subs.mapIdx fun i s =>
          if i ∈ r.subs then { (f i s).close with ending := some outcome } else s
        ended := insert id t.ended } := by
  have hrecord : t₁.recordLocked id = r₁ := by
    rw [recordLocked, hinsts, update_self]
    rfl
  refine Topics.ext ?_ ?_ ?_
  · show update t₁.insts id _ = _
    rw [hinsts, update_idem, hrecord]
  · show t₁.subs.mapIdx _ = _
    rw [hrecord, hr, hsubs, mapIdx_mapIdx]
    congr 1
    funext i s
    by_cases hi : i ∈ r.subs <;> simp [hi]
  · show insert id t₁.ended = _
    rw [hended]

/-- What `finishLocked` does, in one go. -/
lemma finishLocked_eq (hlive : (t.recordLocked id).finished = false) :
    t.finishLocked wire retention now pace pace' id o =
      { insts := update t.insts id
          (some ((t.recordLocked id).finish (t.stamp wire now id (.lifecycle o.phase))
            (t.extraEvent wire now id o) (now + retention)))
        subs := t.subs.mapIdx fun i s => if i ∈ (t.recordLocked id).subs then
          s.finish (t.stamp wire now id (.lifecycle o.phase)) (t.extraEvent wire now id o)
            (dropMarker id now)
            (pace i) (pace' i) else s
        ended := insert id t.ended } := by
  rw [finishLocked, if_neg (by simp [hlive])]
  rw [outcomeEvents_eq]
  cases hextra : o.extra with
  | none =>
    have hnone : t.extraEvent wire now id o = none := by rw [extraEvent, hextra]; rfl
    rw [hnone]
    exact endLocked_publish rfl rfl rfl Instance.subs_retain
  | some body' =>
    have hsome : t.extraEvent wire now id o = some (t.stamp wire now id body') := by
      rw [extraEvent, hextra]; rfl
    rw [hsome]
    refine endLocked_publish ?_ ?_ rfl (Instance.subs_retain.trans Instance.subs_retain)
    · show update (update t.insts id _) id _ = _
      rw [update_idem, recordLocked_publish, stamp_publish]
      rfl
    · show (t.subs.mapIdx _).mapIdx _ = _
      rw [recordLocked_publish, stamp_publish, Instance.subs_retain, mapIdx_mapIdx]
      congr 1
      funext i s
      by_cases hi : i ∈ (t.recordLocked id).subs <;> simp [hi]

/-- What happens to the topics, apart from the end of an instance. -/
inductive Op (t : Topics D) : Topics D → Prop
  | publish (wire : Wire D) (now : Int) (pace : Pace) (id : String) (body : EventBody D)
      (hbody : body.Plain) :
    Op t (t.publishLocked wire now pace id body)
  | submit (id : String) (key : ProcessKey) (ck : Option String) (hid : t.insts id = none) :
      Op t (t.submit id key ck)
  | subscribe (cap : ℕ) (now : Int) (id : String) : Op t (t.subscribeToInstance cap now id)
  | unsubscribe (i : ℕ) : Op t (t.unsubscribe i)
  | read (i n : ℕ) : Op t (t.read i n)
  | sweep (now : Int) : Op t (t.sweep now)
  | close : Op t t.close

end Topics

/-- The calls that end an instance. -/
inductive Finishes (w : World D) : Action D → Call → String → Outcome D → Prop
  | report (c : Call) (id : String) (o : Outcome D) : Finishes w (.report c id (.finished o)) c id o
  | cancel (c : Call) (order : List ℕ) (req : StopRequest) (jobs : JobTable D)
      (hjobs : w.dispatch.jobs.removeQueuedStartLocked req.key req.instanceID = some jobs) :
    Finishes w (.cancel c order req) c req.instanceID .cancelled

variable {w : World D} {a : Action D} {body : EventBody D}

lemma Says.plain {c : Call} {id : String} (h : Says w a c id body) : body.Plain := by
  cases h <;> trivial

variable {cfg : Config D} {w' : World D}

/-- An action ends an instance, or it is a sequence of other operations. -/
lemma Step.ops (h : Step cfg w a w') : ReflTransGen Topics.Op w.topics w'.topics ∨
      ∃ c id o, Finishes w a c id o ∧ w.closed = false ∧
      (w.topics.recordLocked id).finished = false ∧
        w'.topics = w.topics.finishLocked cfg.wire cfg.eventRetention
          c.now c.pace c.pace' id o := by
  have hfinish {c : Call} {id : String} {o : Outcome D} (ha : Finishes w a c id o)
      (hopen : w.closed = false)
      (htopics : w'.topics = w.topics.finishLocked cfg.wire cfg.eventRetention
        c.now c.pace c.pace' id o) :
      ReflTransGen Topics.Op w.topics w'.topics ∨
        ∃ c id o, Finishes w a c id o ∧ w.closed = false ∧
        (w.topics.recordLocked id).finished = false ∧
          w'.topics = w.topics.finishLocked cfg.wire cfg.eventRetention
            c.now c.pace c.pace' id o := by
    cases hlive : (w.topics.recordLocked id).finished with
    | false => exact .inr ⟨c, id, o, ha, hopen, hlive, htopics⟩
    | true =>
      rw [Topics.finishLocked, if_pos hlive] at htopics
      exact .inl (htopics ▸ .refl)
  cases h with
  | submit c order id req job _ hfresh _ =>
    have hsubmit : Topics.Op w.topics (w.topics.submit id req.key req.correlationKey) :=
      .submit id req.key req.correlationKey hfresh.1
    exact .inl (.tail (.single hsubmit) (.publish _ _ _ _ _ rfl))
  | cancelQueued c order req jobs hopen hjobs =>
    exact hfinish (.cancel c order req jobs hjobs) hopen rfl
  | say a c id body _ ha => exact .inl (.single (.publish _ _ _ _ _ ha.plain))
  | running c id _ | suspended c id resumeAt _ => exact .inl (.single (.publish _ _ _ _ _ rfl))
  | finished c id o hopen => exact hfinish (.report c id o) hopen rfl
  | subscribe now id _ => exact .inl (.single (.subscribe _ now id))
  | unsubscribe i => exact .inl (.single (.unsubscribe i))
  | read i n => exact .inl (.single (.read i n))
  | sweep now order _ => exact .inl (.single (.sweep now))
  | close _ => exact .inl (.single .close)
  | _ => exact .inl .refl

/-! ## Properties of records -/

/-- The two events, or the one, that an instance ends with. -/
inductive Ends : InstanceEvent D → Option (InstanceEvent D) → Prop
  | completed (e x : InstanceEvent D) (res : D) (he : e.body = .lifecycle .completed)
      (hx : x.body = .result res) :
    Ends e (some x)
  | failed (e x : InstanceEvent D) (err : InstanceError) (he : e.body = .lifecycle .failed)
      (hx : x.body = .error err) :
    Ends e (some x)
  | cancelled (e : InstanceEvent D) (he : e.body = .lifecycle .cancelled) : Ends e none

namespace Topics

variable {wire : Wire D} {now : Int} {id : String} {body : EventBody D}

lemma plain_stamp (h : body.Plain) : (t.stamp wire now id body).body.Plain := by
  obtain ⟨f, hf⟩ := t.body_stamp wire now id body
  rw [hf]
  cases body <;> exact h

lemma ends_stamp (o : Outcome D) : Ends (t.stamp wire now id (.lifecycle o.phase))
    (t.extraEvent wire now id o) := by
  cases o with
  | completed res =>
    obtain ⟨f, hf⟩ := t.body_stamp wire now id (.result res)
    exact .completed _ _ _ body_stamp_lifecycle hf
  | failed e =>
    obtain ⟨f, hf⟩ := t.body_stamp wire now id (.error e)
    exact .failed _ _ _ body_stamp_lifecycle hf
  | cancelled => exact .cancelled _ body_stamp_lifecycle

end Topics

/-- A property of records that every change of a record keeps. -/
structure Keeps (Q : Instance D → Prop) : Prop where
  blank : Q .blank
  submit : ∀ key ck, Q { Instance.blank with key := key, correlationKey := ck, submitted := true }
  retain : ∀ r evt, evt.body.Plain → Q r → Q (r.retain evt)
  finish : ∀ r e extra expiresAt, r.finished = false → Ends e extra → Q r →
    Q (r.finish e extra expiresAt)
  subs : ∀ r l, (r.finished = true → l ≠ [] → r.subs ≠ []) → Q r → Q { r with subs := l }

/-- The property holds of every record. -/
def Topics.All (Q : Instance D → Prop) (t : Topics D) : Prop := ∀ id r, t.insts id = some r → Q r

namespace Topics

variable {Q : Instance D → Prop} {id : String}

lemma All.record (h : t.All Q) (hQ : Keeps Q) : Q (t.recordLocked id) := by
  rw [recordLocked]
  cases hid : t.insts id with
  | none => exact hQ.blank
  | some r => exact h id r hid

/-- One record is written. -/
lemma All.update (h : t.All Q) (hr : Q r) (hinsts : t'.insts = update t.insts id (some r)) :
    t'.All Q := by
  intro id' r' hid'
  rw [hinsts, update_apply] at hid'
  split at hid'
  · cases hid'
    exact hr
  · exact h id' r' hid'

lemma Op.keeps_all (hQ : Keeps Q) (h : t.Op t') (ht : t.All Q) : t'.All Q := by
  cases h with
  | publish wire now pace id body hbody =>
    exact ht.update (hQ.retain _ _ (plain_stamp hbody) (ht.record hQ)) rfl
  | submit id key ck hid => exact ht.update (hQ.submit key ck) rfl
  | subscribe cap now id =>
    rw [subscribeToInstance]
    split
    · exact ht.update (hQ.subs .blank [t.subs.length] nofun hQ.blank) rfl
    · rename_i r hr
      split
      · exact ht
      · rename_i hlive
        exact ht.update (hQ.subs _ _ (fun hf => absurd hf hlive) (ht id r hr)) rfl
  | unsubscribe i =>
    rw [Topics.unsubscribe]
    split
    · exact ht
    · split
      · refine ht.update (hQ.subs _ _ (fun _ hne hnil => hne ?_) (ht.record hQ)) rfl
        rw [hnil, erase_nil]
      · exact ht
  | read i n => exact ht
  | sweep now =>
    intro id r hr
    obtain ⟨hr, -⟩ := Option.filter_eq_some_iff.1 hr
    exact ht id r hr
  | close =>
    intro id r hr
    obtain ⟨r₀, hr₀, rfl⟩ := Option.map_eq_some_iff.1 hr
    exact hQ.subs _ _ (fun _ hne => absurd rfl hne) (ht id r₀ hr₀)

lemma ops_induction {I : Topics D → Prop} (hI : ∀ t t', t.Op t' → I t → I t')
    (h : ReflTransGen Op t t')
    (ht : I t) : I t' := by
  induction h with
  | refl => exact ht
  | tail _ hop ih => exact hI _ _ hop ih

end Topics

/-- A property that every change of a record keeps is kept by every action. -/
lemma Step.all {Q : Instance D → Prop} (hQ : Keeps Q)
    (h : Step cfg w a w') (hw : w.topics.All Q) : w'.topics.All Q := by
  rcases h.ops with hops | ⟨c, id, o, -, -, hlive, htopics⟩
  · exact Topics.ops_induction (fun _ _ hop => hop.keeps_all hQ) hops hw
  · rw [htopics, Topics.finishLocked_eq hlive]
    exact hw.update (hQ.finish _ _ _ _ hlive (Topics.ends_stamp o) (hw.record hQ)) rfl

/-! ## Properties of subscribers -/

/-- A property of subscribers that every change of a subscriber keeps, apart from the end of
its instance. -/
structure SubKeeps (P : Sub D → Prop) : Prop where
  send : ∀ s evt marker pace, P s → P (s.send evt marker pace)
  close : ∀ s, P s → P s.close
  read : ∀ s n, P s → P { s with ch := s.ch.read n }
  early : ∀ id cap evts, P ⟨id, { Chan.make cap with buffer := evts }, false, false, none⟩
  late : ∀ id cap evts,
    P ⟨id, ({ Chan.make cap with buffer := evts } : Chan _).close, false, true, none⟩

/-- The property holds of every subscriber. -/
def Topics.AllSubs (P : Sub D → Prop) (t : Topics D) : Prop := ∀ s ∈ t.subs, P s

namespace Topics

variable {P : Sub D → Prop}

/-- Some subscribers change. -/
lemma AllSubs.mapIdx {f : ℕ → Sub D → Sub D} (hf : ∀ i s, t.subs[i]? = some s → P (f i s))
    (hsubs : t'.subs = t.subs.mapIdx f) : t'.AllSubs P := by
  intro s' hs'
  rw [hsubs] at hs'
  obtain ⟨i, hi⟩ := mem_iff_getElem?.1 hs'
  rw [getElem?_mapIdx] at hi
  obtain ⟨s, hs, rfl⟩ := Option.map_eq_some_iff.1 hi
  exact hf i s hs

lemma AllSubs.append {s : Sub D} (h : t.AllSubs P) (hs : P s) (hsubs : t'.subs = t.subs ++ [s]) :
    t'.AllSubs P := by
  intro s' hs'
  rw [hsubs, mem_append, mem_singleton] at hs'
  rcases hs' with hs' | rfl
  · exact h s' hs'
  · exact hs

lemma Op.keeps_subs (hP : SubKeeps P) (h : t.Op t') (ht : t.AllSubs P) : t'.AllSubs P := by
  cases h with
  | publish wire now pace id body hbody =>
    refine AllSubs.mapIdx (fun i s hs => ?_) rfl
    have hPs := ht s (mem_of_getElem? hs)
    split
    · exact hP.send _ _ _ _ hPs
    · exact hPs
  | submit _ _ _ _ | sweep _ => exact ht
  | subscribe cap now id =>
    rw [subscribeToInstance]
    split
    · exact ht.append (hP.early _ _ _) rfl
    · split
      · exact ht.append (hP.late _ _ _) rfl
      · exact ht.append (hP.early _ _ _) rfl
  | unsubscribe i =>
    rw [Topics.unsubscribe]
    split
    · exact ht
    · rename_i s hs
      split
      · intro s' hs'
        rcases mem_or_eq_of_mem_set hs' with hs' | rfl
        · exact ht s' hs'
        · exact hP.close _ (ht s (mem_of_getElem? hs))
      · exact ht
  | read i n =>
    intro s' hs'
    obtain ⟨m, hm⟩ := mem_iff_getElem?.1 hs'
    rw [Topics.read, getElem?_modify] at hm
    obtain ⟨s, hs, rfl⟩ := Option.map_eq_some_iff.1 hm
    have hPs := ht s (mem_of_getElem? hs)
    split
    · exact hP.read _ _ hPs
    · exact hPs
  | close =>
    refine AllSubs.mapIdx (fun i s hs => ?_) rfl
    have hPs := ht s (mem_of_getElem? hs)
    split
    · exact hP.close _ hPs
    · exact hPs

end Topics

/-- A property that every change of a subscriber keeps is kept by every action, if the end of
an instance keeps it too. -/
lemma Step.allSubs {P : Sub D → Prop} (hP : SubKeeps P)
    (h : Step cfg w a w') (hw : w.topics.AllSubs P)
    (hfinish : ∀ c id o, Finishes w a c id o → w.closed = false →
      (w.topics.recordLocked id).finished = false →
      ∀ i s, i ∈ (w.topics.recordLocked id).subs → w.topics.subs[i]? = some s → P s →
        P (s.finish (w.topics.stamp cfg.wire c.now id (.lifecycle o.phase))
          (w.topics.extraEvent cfg.wire c.now id o)
          (dropMarker id c.now) (c.pace i) (c.pace' i))) : w'.topics.AllSubs P := by
  rcases h.ops with hops | ⟨c, id, o, ha, hopen, hlive, htopics⟩
  · exact Topics.ops_induction (fun _ _ hop => hop.keeps_subs hP) hops hw
  · rw [htopics, Topics.finishLocked_eq hlive]
    refine Topics.AllSubs.mapIdx (t := w.topics) (fun i s hs => ?_) rfl
    have hPs := hw s (mem_of_getElem? hs)
    split
    · exact hfinish c id o ha hopen hlive i s ‹_› hs hPs
    · exact hPs

/-! ## One end -/

/-- The lifecycle events among these that report the end of an instance. -/
def terminalEvents (l : List (InstanceEvent D)) : List (InstanceEvent D) :=
  l.filter fun e => e.phase.any ProcessStatus.Terminal

/-- A record has at most one end.  Until then no result or error is kept for late
subscribers, and from then on there are no subscribers. -/
structure Instance.Sound (r : Instance D) : Prop where
  one : (terminalEvents r.published).length ≤ 1
  live : r.finished = false → terminalEvents r.published = [] ∧ r.terminal = none ∧
    r.phase.any ProcessStatus.Terminal = false
  released : r.finished = true → r.subs = []

/-- The flag of a subscriber shows whether its channel is closed, and the channel was not
misused. -/
structure Sub.Sound (s : Sub D) : Prop where
  flag : s.ch.closed = s.closed
  used : s.ch.misused = false
  ended : s.ending.isSome = true → s.closed = true

lemma terminalEvents_append (l : List (InstanceEvent D)) (e : InstanceEvent D) :
    terminalEvents (l ++ [e]) = terminalEvents l ++ terminalEvents [e] := filter_append _ _

lemma terminalEvents_plain (h : evt.body.Plain) : terminalEvents [evt] = [] := by
  refine filter_eq_nil_iff.2 fun e he => ?_
  rw [mem_singleton.1 he, InstanceEvent.phase]
  cases hb : evt.body with
  | lifecycle phase =>
    rw [hb] at h
    have hphase : phase.Terminal = false := h
    simp [hphase]
  | _ => exact nofun

lemma Instance.Sound.retain (h : r.Sound) (hevt : evt.body.Plain) : (r.retain evt).Sound := by
  have hterminal : terminalEvents (r.retain evt).published = terminalEvents r.published := by
    rw [Instance.published_retain, terminalEvents_append, terminalEvents_plain hevt, append_nil]
  refine ⟨hterminal ▸ h.one, fun hlive => ?_, fun hover => ?_⟩
  · rw [Instance.finished_retain] at hlive
    obtain ⟨hnone, hter, hphase⟩ := h.live hlive
    refine ⟨hterminal ▸ hnone, ?_⟩
    rw [Instance.retain]
    cases hb : evt.body with
    | lifecycle phase =>
      rw [hb] at hevt
      refine ⟨hter, ?_⟩
      rw [Instance.phase, Option.bind_some, InstanceEvent.phase, hb]
      exact hevt
    | result res =>
      rw [hb] at hevt
      exact absurd hevt id
    | error e =>
      rw [if_neg]
      · exact ⟨hter, hphase⟩
      · intro hfailed
        rw [hfailed] at hphase
        cases hphase
    | inputRequest _ _ _ | nodeCompleted _ _ _ => exact ⟨hter, hphase⟩
  · rw [Instance.finished_retain] at hover
    rw [Instance.subs_retain]
    exact h.released hover

variable {e : InstanceEvent D} {extra : Option (InstanceEvent D)}

lemma Instance.published_finish {expiresAt : Int} :
    (r.finish e extra expiresAt).published = r.published ++ e :: extra.toList := by
  cases extra with
  | none => exact Instance.published_retain
  | some x =>
    show ((r.retain e).retain x).published = _
    rw [published_retain, published_retain, append_assoc]
    rfl

/-- Of the events an instance ends with, the first reports the end. -/
lemma terminalEvents_ends (h : Ends e extra) : terminalEvents (e :: extra.toList) = [e] := by
  cases h with
  | completed x res he hx
  | failed x err he hx => simp [terminalEvents, InstanceEvent.phase, he, hx, ProcessStatus.Terminal]
  | cancelled he => simp [terminalEvents, InstanceEvent.phase, he, ProcessStatus.Terminal]

lemma keeps_sound : Keeps (Instance.Sound (D := D)) where
  blank := ⟨Nat.zero_le _, fun _ => ⟨rfl, rfl, rfl⟩, fun _ => rfl⟩
  submit := fun _ _ => ⟨Nat.zero_le _, fun _ => ⟨rfl, rfl, rfl⟩, fun _ => rfl⟩
  retain := fun _ _ hevt h => h.retain hevt
  finish := fun r e extra expiresAt hlive hends h => by
    refine ⟨?_, nofun, fun _ => rfl⟩
    rw [Instance.published_finish, terminalEvents, filter_append]
    rw [show r.published.filter _ = [] from (h.live hlive).1]
    rw [show (e :: extra.toList).filter _ = [e] from terminalEvents_ends hends]
    exact Nat.le_refl 1
  subs := fun r l hl h => by
    refine ⟨h.one, h.live, fun hover => ?_⟩
    by_contra hne
    exact hl hover hne (h.released hover)

variable {s : Sub D}

lemma Sub.Sound.offer (h : s.Sound) (hopen : s.closed = false) (n : ℕ) : (s.offer evt n).Sound := by
  have hch : (s.ch.read n).closed = false := by rw [Chan.closed_read, h.flag, hopen]
  refine ⟨?_, ?_, h.ended⟩
  · show ((s.ch.read n).trySend evt).2.closed = s.closed
    rw [Chan.closed_trySend, Chan.closed_read, h.flag]
  · show ((s.ch.read n).trySend evt).2.misused = false
    rw [Chan.misused_trySend hch, Chan.misused_read, h.used]

lemma subKeeps_sound : SubKeeps (Sub.Sound (D := D)) where
  send := fun s evt marker pace h => by
    rw [Sub.send]
    split
    · exact h
    · rename_i hopen
      have hopen : s.closed = false := by simpa using hopen
      split
      · have hch : (s.ch.read pace.1).closed = false := by rw [Chan.closed_read, h.flag, hopen]
        have hflag := @Chan.closed_trySend _ (s.ch.read pace.1) marker
        have hused := @Chan.misused_trySend _ (s.ch.read pace.1) marker hch
        rw [Chan.closed_read, h.flag] at hflag
        rw [Chan.misused_read, h.used] at hused
        split
        · rename_i ch heq
          rw [heq] at hflag hused
          exact Sub.Sound.offer (s := { s with ch := ch, dropped := false })
            ⟨hflag, hused, h.ended⟩ hopen _
        · rename_i ch heq
          rw [heq] at hflag hused
          exact ⟨hflag, hused, h.ended⟩
      · exact h.offer hopen _
  close := fun s h => by
    rw [Sub.close]
    split
    · exact h
    · rename_i hopen
      have hch : s.ch.closed = false := by rw [h.flag]; simpa using hopen
      exact ⟨Chan.closed_close, (Chan.misused_close hch).trans h.used, fun _ => rfl⟩
  read := fun s n h => { h with }
  early := fun _ _ _ => ⟨rfl, rfl, nofun⟩
  late := fun _ _ _ => ⟨rfl, rfl, nofun⟩

lemma Sub.closed_close (s : Sub D) : s.close.closed := by
  rw [Sub.close]
  split
  · assumption
  · rfl

lemma Sub.Sound.finish (h : s.Sound) (e : InstanceEvent D) (extra : Option (InstanceEvent D))
    (marker : InstanceEvent D) (pace pace' : ℕ × ℕ) :
      (s.finish e extra marker pace pace').Sound := by
  have hsent : (extra.elim (s.send e marker pace) fun x => (s.send e marker pace).send
      x marker pace').Sound := by
    cases extra with
    | none => exact subKeeps_sound.send _ _ _ _ h
    | some x => exact subKeeps_sound.send _ _ _ _ (subKeeps_sound.send _ _ _ _ h)
  have hclosed := subKeeps_sound.close _ hsent
  exact ⟨hclosed.flag, hclosed.used, fun _ => Sub.closed_close _⟩

/-- Records have at most one end, and channels are not misused. -/
def Topics.Sound (t : Topics D) : Prop := t.All Instance.Sound ∧ t.AllSubs Sub.Sound

lemma topics_sound_empty : (Topics.empty : Topics D).Sound :=
  ⟨fun _ _ hr => (Option.some_ne_none _ hr.symm).elim, fun _ hs => absurd hs not_mem_nil⟩

lemma Step.topics_sound (h : Step cfg w a w') (hw : w.topics.Sound) : w'.topics.Sound :=
  ⟨h.all keeps_sound hw.1, h.allSubs subKeeps_sound hw.2 fun _ _ _ _ _ _ _ _ _ _ hs =>
    hs.finish _ _ _ _ _⟩

/-- In every run at most one terminal lifecycle event is published on a record, a finished
record has no subscribers, and no channel of a subscriber is closed twice or sent on after
it was closed. -/
theorem single_ending (cfg : Config D) (as : List (Action D)) (w : World D)
    (h : (machine cfg).exec .new as = some w) :
    (∀ id r, w.topics.insts id = some r →
      (terminalEvents r.published).length ≤ 1 ∧ (r.finished = true → r.subs = [])) ∧
    ∀ s ∈ w.topics.subs, s.ch.misused = false := by
  obtain ⟨hrecords, hsubs⟩ := Machine.exec_induction (I := fun w => w.topics.Sound)
    (fun _ _ _ hw hstep => (Step.of_step hstep).topics_sound hw) topics_sound_empty h
  exact ⟨fun id r hr => ⟨(hrecords id r hr).one, (hrecords id r hr).released⟩,
    fun s hs => (hsubs s hs).used⟩

/-- A client subscribes, the instance completes, a second report comes late, and another
client subscribes. -/
def sampleEnd : List (Action Unit) :=
  sampleTake ++ [.fetch (.loop 0 .hand), .subscribeToInstance 2 "i",
    .report (sampleCall 3) "i" (.finished (.completed ())),
    .report (sampleCall 4) "i" (.finished .cancelled), .subscribeToInstance 5 "i",
    .unsubscribe 0, .close]

/-- The instance is reported completed and then cancelled, and has one ending. -/
theorem single_ending_completed : ∃ w r, (machine sampleConfig).exec .new sampleEnd = some w ∧
    w.topics.insts "i" = some r ∧ w.topics.subs.length = 2 ∧ r.finished = true ∧
    (terminalEvents r.published).length ≤ 1 ∧ r.subs = [] ∧ ∀ s ∈ w.topics.subs,
    s.ch.misused = false := by
  obtain ⟨w, r, h, hr, hlen, hover⟩ : ∃ w r, (machine sampleConfig).exec .new sampleEnd = some w ∧
      w.topics.insts "i" = some r ∧ w.topics.subs.length = 2 ∧ r.finished = true :=
        ⟨_, _, rfl, rfl, rfl, rfl⟩
  obtain ⟨hrecords, hsubs⟩ := single_ending sampleConfig sampleEnd w h
  exact ⟨w, r, h, hr, hlen, hover, (hrecords "i" r hr).1, (hrecords "i" r hr).2 hover, hsubs⟩

end Broker

end Blkit
