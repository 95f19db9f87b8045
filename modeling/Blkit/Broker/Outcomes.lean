import Blkit.Broker.Records

/-!
# What subscribers learn about the end

A late subscriber is replayed the latest lifecycle event and the result or error.  Publishing
writes both, also after the instance has finished, so what is replayed can change; it does
not while nothing is reported about a finished instance that is kept for replay
(`outcome_kept`).

A subscriber that is there when the instance finishes is sent the outcome if it fits into
its buffer, and then closed.  What does not fit is lost without a trace.  It fits if there is
room for the events and for the marker that earlier losses call for (`outcome_told`).  These
markers tell exactly of the losses (`Sub.markers_exact`).
-/

namespace Blkit

namespace Broker

open Relation List Function Option

variable {D : Type} {cfg : Config D} {w w' : World D} {a : Action D} {t t' : Topics D}
  {r : Instance D}
  {evt : InstanceEvent D}

/-! ## Replay -/

/-- The calls that change what is replayed about a finished instance. -/
inductive Disturbs (r : Instance D) : Action D → String → Prop
  | running (c : Call) (id : String) : Disturbs r (.report c id .running) id
  | suspended (c : Call) (id : String) (resumeAt : Option Int) : Disturbs r
      (.report c id (.suspended resumeAt)) id
  | error (c : Call) (id : String) (e : InstanceError) (h : r.phase = some .failed) :
    Disturbs r (.report c id (.error e)) id
  | respond (c : Call) (id requestID : String) (payload : D) (h : r.phase = some .failed) :
    Disturbs r (.respondToInputRequest c id requestID payload) id

/-- Nothing is reported about a finished instance that is kept for replay. -/
def Undisturbed (w : World D) (a : Action D) : Prop :=
  ∀ id r, w.topics.insts id = some r → r.finished = true → ¬ Disturbs r a id

/-- What is replayed about a finished instance: it stays the same until the record is purged,
it is what was published when the instance finished, and a late subscriber gets just that. -/
structure KeepsOutcome (cfg : Config D) (w : World D) (a : Action D) (w' : World D) : Prop where
  frozen : ∀ id r, w.topics.insts id = some r → r.finished = true →
    (∃ now order, a = .sweep now order ∧ w'.topics.insts id = none) ∨
      ∃ r', w'.topics.insts id = some r' ∧ r'.finished = true ∧ r'.replay = r.replay
  ends : ∀ id r', w'.topics.insts id = some r' → r'.finished = true →
    (w.topics.recordLocked id).finished = false →
    ∃ c o, Finishes w a c id o ∧ r'.replay = w.topics.outcomeEvents cfg.wire c.now id o
  told : ∀ now id r, a = .subscribeToInstance now id → w.closed = false →
    w.topics.insts id = some r →
    r.finished = true → ∃ s, w'.topics.subs = w.topics.subs ++ [s] ∧ s.ch.contents = r.replay ∧
    s.ch.closed = true

namespace Instance

/-- An event that is not kept for replay. -/
lemma replay_retain (hevt : evt.body.Plain) (hphase : evt.phase = none)
    (herror : ∀ e, evt.body = .error e → r.phase ≠ some .failed) :
      (r.retain evt).replay = r.replay := by
  rw [retain]
  cases hb : evt.body with
  | lifecycle phase =>
    rw [InstanceEvent.phase, hb] at hphase
    cases hphase
  | result res =>
    rw [hb] at hevt
    exact absurd hevt id
  | error e =>
    rw [if_neg (herror e hb)]
    rfl
  | inputRequest _ _ _ | nodeCompleted _ _ _ => rfl

/-- What is replayed about an instance right after it has finished. -/
lemma replay_finish {e : InstanceEvent D} {extra : Option (InstanceEvent D)} {expiresAt : Int}
    (h : Ends e extra)
    (hterminal : r.terminal = none) : (r.finish e extra expiresAt).replay = e :: extra.toList := by
  have hlatest (phase : ProcessStatus) (he : e.body = .lifecycle phase) :
      (r.retain e).latestLifecycle = some e ∧ (r.retain e).terminal = none ∧
      (r.retain e).phase = some phase := by
    simp only [retain, he, Instance.phase, bind_some, InstanceEvent.phase]
    exact ⟨trivial, hterminal, trivial⟩
  cases h with
  | completed x _ he hx | failed x _ he hx =>
    obtain ⟨hl, -, hp⟩ := hlatest _ he
    show ((r.retain e).retain x).latestLifecycle.toList ++
      ((r.retain e).retain x).terminal.toList = _
    simp only [retain.eq_1 (r.retain e) x, hx, hl, hp, if_true]
    rfl
  | cancelled he =>
    obtain ⟨hl, ht, -⟩ := hlatest _ he
    show (r.retain e).latestLifecycle.toList ++ (r.retain e).terminal.toList = _
    rw [hl, ht]
    rfl

end Instance

/-- The record is there, finished, and replays the same. -/
def Topics.Replays (t : Topics D) (id : String) (r : Instance D) : Prop :=
  ∃ r', t.insts id = some r' ∧ r'.finished = true ∧ r'.replay = r.replay

section Frozen

variable {id id' : String} (hr : t.insts id = some r) (hover : r.finished = true)

include hr hover

/-- Another record is written. -/
lemma Topics.replays_of_ne {r' : Option (Instance D)} (hne : id ≠ id')
    (hinsts : t'.insts = update t.insts id' r') : t'.Replays id r := by
  refine ⟨r, ?_, hover, rfl⟩
  rw [hinsts, update_of_ne hne]
  exact hr

variable {wire : Wire D} {now : Int} {pace : Pace}

lemma Topics.replays_publish {body : EventBody D} (hbody : body.Plain)
    (hquiet : id = id' → (∀ phase, body ≠ .lifecycle phase) ∧ ∀ e, body = .error e →
    r.phase ≠ some .failed) :
    (t.publishLocked wire now pace id' body).Replays id r := by
  by_cases hne : id = id'
  · obtain ⟨hlifecycle, herror⟩ := hquiet hne
    subst hne
    have hrecord : t.recordLocked id = r := by rw [recordLocked, hr]; rfl
    obtain ⟨f, hf⟩ := t.body_stamp wire now id body
    refine ⟨r.retain (t.stamp wire now id body), ?_, ?_, ?_⟩
    · rw [← hrecord]
      exact update_self _ _ _
    · rw [Instance.finished_retain, hover]
    · refine Instance.replay_retain (plain_stamp hbody) ?_ fun e he => ?_
      · rw [InstanceEvent.phase, hf]
        cases body with
        | lifecycle phase => exact absurd rfl (hlifecycle phase)
        | _ => rfl
      · rw [hf] at he
        cases body with
        | error e' => exact herror e' rfl
        | _ => cases he
  · exact replays_of_ne hr hover hne rfl

lemma Topics.replays_finish {retention : Int} {pace' : Pace} {o : Outcome D} :
    (t.finishLocked wire retention now pace pace' id' o).Replays id r := by
  cases hlive : (t.recordLocked id').finished with
  | true =>
    rw [finishLocked, if_pos hlive]
    exact ⟨r, hr, hover, rfl⟩
  | false =>
    rw [finishLocked_eq hlive]
    refine replays_of_ne hr hover ?_ rfl
    rintro rfl
    rw [recordLocked, hr] at hlive
    exact absurd hover (by simpa using hlive)

end Frozen

variable {id : String}

lemma Says.quiet {c : Call} {body : EventBody D} (h : Says w a c id body) :
    (∀ phase, body ≠ .lifecycle phase) ∧
      ∀ e, body = .error e → ∀ r, w.topics.insts id = some r → r.phase = some .failed →
      Disturbs r a id := by
  cases h with
  | unknown _ _ requestID payload hrec =>
    refine ⟨nofun, fun e _ r hr => ?_⟩
    rw [hrec] at hr
    cases hr
  | late _ _ requestID payload rec _ _ =>
    exact ⟨nofun, fun _ _ _ _ hphase => .respond _ _ requestID payload hphase⟩
  | error _ _ e => exact ⟨nofun, fun _ _ _ _ hphase => .error _ _ e hphase⟩
  | inputRequest _ _ _ _ _ | nodeCompleted _ _ _ _ _ => exact ⟨nofun, nofun⟩

/-- An action that does not disturb keeps what is replayed, unless it purges the record. -/
lemma Step.frozen (h : Step cfg w a w') (hU : Undisturbed w a) (hr : w.topics.insts id = some r)
    (hover : r.finished) :
    (∃ now order, a = .sweep now order ∧ w'.topics.insts id = none) ∨ w'.topics.Replays id r := by
  have hcalm := hU id r hr hover
  cases h with
  | submit c order id' req job _ hfresh _ =>
    have hne : id ≠ id' := by
      rintro rfl
      rw [hfresh.1] at hr
      cases hr
    refine .inr
      (Topics.replays_publish (t := w.topics.submit id' req.key req.correlationKey) ?_ hover rfl
      fun heq => absurd heq hne)
    exact (update_of_ne hne _ _).trans hr
  | cancelQueued c order req jobs _ _ | finished c id' o _ =>
    exact .inr (Topics.replays_finish hr hover)
  | say a c id' body _ ha =>
    refine .inr (Topics.replays_publish hr hover ha.plain ?_)
    rintro rfl
    exact ⟨ha.quiet.1, fun e he hphase => hcalm (ha.quiet.2 e he r hr hphase)⟩
  | running c id' _ | suspended c id' _ _ =>
    refine .inr (Topics.replays_publish hr hover rfl ?_)
    rintro rfl
    exact absurd (by constructor) hcalm
  | subscribe now id' _ =>
    refine .inr ?_
    rw [Topics.subscribeToInstance]
    split
    · rename_i hnone
      refine Topics.replays_of_ne hr hover ?_ rfl
      rintro rfl
      rw [hnone] at hr
      cases hr
    · rename_i r' hr'
      split
      · exact ⟨r, hr, hover, rfl⟩
      · rename_i hlive
        refine Topics.replays_of_ne hr hover ?_ rfl
        rintro rfl
        rw [hr] at hr'
        cases hr'
        exact hlive hover
  | unsubscribe i =>
    refine .inr ?_
    rw [Topics.unsubscribe]
    split
    · exact ⟨r, hr, hover, rfl⟩
    · rename_i s _
      split
      · by_cases hne : id = s.instanceID
        · have hrecord : w.topics.recordLocked s.instanceID = r := by
            rw [Topics.recordLocked, ← hne, hr]; rfl
          refine ⟨{ r with subs := r.subs.erase i }, ?_, hover, rfl⟩
          dsimp only
          rw [hrecord, hne, update_self]
        · exact Topics.replays_of_ne hr hover hne rfl
      · exact ⟨r, hr, hover, rfl⟩
  | sweep now order _ =>
    show _ ∨ ∃ r', (w.topics.insts id).filter _ = some r' ∧ _
    cases hkeep : (w.topics.insts id).filter fun r =>
      !(r.finished && decide (r.expiresAt < now) && r.subs.isEmpty) with
    | none => exact .inl ⟨now, order, rfl, hkeep⟩
    | some r' =>
      obtain ⟨hr', -⟩ := filter_eq_some_iff.1 hkeep
      rw [hr] at hr'
      cases hr'
      exact .inr ⟨r, rfl, hover, rfl⟩
  | close _ =>
    refine .inr ⟨{ r with subs := [] }, ?_, hover, rfl⟩
    show (w.topics.insts id).map _ = _
    rw [hr]
    rfl
  | _ => exact .inr ⟨r, hr, hover, rfl⟩

/-- The instance has no finished record. -/
def Topics.Live (t : Topics D) (id : String) : Prop := ∀ r, t.insts id = some r → r.finished = false

lemma Topics.live_iff : t.Live id ↔ (t.recordLocked id).finished = false := by
  rw [Live, recordLocked]
  cases t.insts id with
  | none => exact ⟨fun _ => rfl, fun _ r hr => (some_ne_none r hr.symm).elim⟩
  | some r => exact ⟨fun h => h r rfl, fun h r' hr' => some.inj hr' ▸ h⟩

lemma Topics.Live.update {id' : String} (h : t.Live id)
    (hinsts : t'.insts = update t.insts id' (some r))
    (hr : r.finished = (t.recordLocked id').finished) :
    t'.Live id := by
  intro r' hr'
  rw [hinsts, update_apply] at hr'
  split at hr'
  · rename_i hid
    cases hr'
    rw [hr, ← hid]
    exact live_iff.1 h
  · exact h r' hr'

/-- Only the end of an instance finishes a record. -/
lemma Topics.Op.live (h : t.Op t') (ht : t.Live id) : t'.Live id := by
  cases h with
  | publish wire now pace id' body hbody => exact ht.update rfl Instance.finished_retain
  | submit id' key ck hid =>
    refine ht.update rfl ?_
    rw [recordLocked, hid]
    rfl
  | subscribe cap now id' =>
    rw [subscribeToInstance]
    split
    · rename_i hid
      refine ht.update rfl ?_
      rw [recordLocked, hid]
      rfl
    · rename_i r hid
      split
      · exact ht
      · refine ht.update rfl ?_
        rw [recordLocked, hid]
        rfl
  | unsubscribe i =>
    rw [Topics.unsubscribe]
    split
    · exact ht
    · split
      · exact ht.update rfl rfl
      · exact ht
  | read i n => exact ht
  | sweep now =>
    intro r hr
    exact ht r (filter_eq_some_iff.1 hr).1
  | close =>
    intro r hr
    obtain ⟨r₀, hr₀, rfl⟩ := map_eq_some_iff.1 hr
    exact ht r₀ hr₀

/-- A record that is finished by an action is finished by a call that ends the instance. -/
lemma Step.ends (h : Step cfg w a w') (hw : w.topics.Sound) (hr : w'.topics.insts id = some r)
    (hover : r.finished) (hlive : (w.topics.recordLocked id).finished = false) :
    ∃ c o, Finishes w a c id o ∧ r.replay = w.topics.outcomeEvents cfg.wire c.now id o := by
  have hbefore := Topics.live_iff.2 hlive
  rcases h.ops with hops | ⟨c, id', o, ha, -, hlive', htopics⟩
  · have hafter : w'.topics.Live id :=
      Topics.ops_induction (I := fun t => t.Live id) (fun _ _ hop => hop.live) hops hbefore
    rw [hafter r hr] at hover
    cases hover
  · rw [htopics, Topics.finishLocked_eq hlive'] at hr
    dsimp only at hr
    by_cases hid : id = id'
    · subst hid
      rw [update_self] at hr
      cases hr
      refine ⟨c, o, ha, ?_⟩
      rw [Topics.outcomeEvents_eq]
      exact Instance.replay_finish (Topics.ends_stamp o) ((hw.1.record keeps_sound).live hlive').2.1
    · rw [update_of_ne hid] at hr
      rw [hbefore r hr] at hover
      cases hover

variable {now : Int}

lemma Step.told (h : (machine cfg).step w a = some w')
    (ha : a = .subscribeToInstance now id) (hopen : w.closed = false)
    (hr : w.topics.insts id = some r)
    (hover : r.finished) :
    ∃ s, w'.topics.subs = w.topics.subs ++ [s] ∧ s.ch.contents = r.replay ∧ s.ch.closed := by
  subst ha
  obtain rfl := of_subscribe hopen h
  refine ⟨⟨id, ({ Chan.make (max cfg.eventBufferSize 2).toNat with buffer := r.replay } :
    Chan _).close, false, true, none⟩,
    ?_, Chan.contents_close, Chan.closed_close⟩
  simp only [Topics.subscribeToInstance, hr, hover, if_true]

/-- If nothing disturbs, what is replayed about a finished instance is what was published when
it finished, until the record is purged. -/
theorem outcome_kept (cfg : Config D) (as : List (Action D))
    (h : (machine cfg).Along Undisturbed .new as) :
    (machine cfg).Along (fun w a => ∀ w', (machine cfg).step w a = some w' →
      KeepsOutcome cfg w a w') .new as := by
  refine h.along (I := fun w => w.topics.Sound) ?_ ?_ topics_sound_empty
  · exact fun w a w' _ hw hstep => (Step.of_step hstep).topics_sound hw
  · intro w a hU hw w' hstep
    have hs := Step.of_step hstep
    exact ⟨fun id r hr hover => hs.frozen hU hr hover, fun id r hr hover hlive =>
      hs.ends hw hr hover hlive,
      fun now id r ha hopen hr hover => Step.told hstep ha hopen hr hover⟩

/-- The instance fails, and an error comes late. -/
def sampleFailed : List (Action Unit) :=
  sampleTake ++ [.fetch (.loop 0 .hand),
    .report (sampleCall 3) "i" (.finished (.failed ⟨"E1", "first"⟩))]

/-- An input response that comes late replaces the error the instance failed with. -/
theorem outcome_overwritten : ∃ w w', (machine sampleConfig).exec .new sampleFailed = some w ∧
    (machine sampleConfig).step w (.respondToInputRequest (sampleCall 4) "i" "r" ()) = some w' ∧
    ¬ KeepsOutcome sampleConfig w (.respondToInputRequest (sampleCall 4) "i" "r" ()) w' := by
  obtain ⟨w, w', r, h, h', hr, hover, hchanged⟩ : ∃ w w' r,
      (machine sampleConfig).exec .new sampleFailed = some w ∧
      (machine sampleConfig).step w (.respondToInputRequest (sampleCall 4) "i" "r" ()) = some w' ∧
      w.topics.insts "i" = some r ∧ r.finished = true ∧
      (w'.topics.insts "i").map Instance.replay ≠ (w.topics.insts "i").map Instance.replay :=
    ⟨_, _, _, rfl, rfl, rfl, rfl, by decide⟩
  refine ⟨w, w', h, h', fun hkeeps => ?_⟩
  rcases hkeeps.frozen "i" r hr hover with ⟨now, order, ha, -⟩ | ⟨r', hr', -, hreplay⟩
  · cases ha
  · rw [hr, hr', map_some, map_some, hreplay] at hchanged
    exact hchanged rfl

/-- The same run, with an input request that comes late instead, and a subscriber. -/
def sampleLate : List (Action Unit) :=
  sampleFailed ++ [.report (sampleCall 4) "i" (.inputRequest "n" "r" ()),
    .subscribeToInstance 5 "i"]

/-- An action that never disturbs. -/
def calm : Action D → Bool
  | .report _ _ .running | .report _ _ (.suspended _) | .report _ _ (.error _) => false
  | .respondToInputRequest _ _ _ _ => false
  | _ => true

/-- The late request changes nothing. -/
theorem outcome_kept_late : (machine sampleConfig).Along Undisturbed .new sampleLate ∧
    (machine sampleConfig).Along (fun w a => ∀ w', (machine sampleConfig).step w a = some w' →
      KeepsOutcome sampleConfig w a w') .new sampleLate := by
  have hcalm : (machine sampleConfig).Along Undisturbed .new sampleLate :=
    Machine.along_of_checks (p := fun _ a => calm a)
      (fun _ _ h _ _ _ _ hd => by cases hd <;> cases h) rfl
  exact ⟨hcalm, outcome_kept sampleConfig sampleLate hcalm⟩

/-! ## Full buffers -/

/-- A subscriber whose channel was closed because the instance finished has been sent the
outcome, or the last it was sent is a marker for dropped events. -/
def Sub.Told (s : Sub D) : Prop :=
  ∀ o, s.ending = some o → (∀ e ∈ o, e ∈ s.ch.contents) ∨ ∃ id now,
    s.ch.contents.getLast? = some (dropMarker id now)

/-- When an instance finishes, every subscriber has room for what it is sent. -/
def Roomy (w : World D) (a : Action D) : Prop :=
  ∀ c id o, Finishes w a c id o → w.closed = false → (w.topics.recordLocked id).finished = false →
    ∀ i s, i ∈ (w.topics.recordLocked id).subs → w.topics.subs[i]? = some s →
      o.extra.toList.length + 1 + s.dropped.toNat ≤ s.ch.room

namespace Sub

variable {s : Sub D} {marker : InstanceEvent D} {n : ℕ} {pace : ℕ × ℕ}

/-- What an event does to a subscriber that has room for it. -/
structure Gets (s s' : Sub D) (l : List (InstanceEvent D)) (n : ℕ) : Prop where
  contents : s'.ch.contents = s.ch.contents ++ l
  room : s.ch.room ≤ s'.ch.room + n
  dropped : s'.dropped = false
  closed : s'.closed = false
  flag : s'.ch.closed = false

lemma offer_gets (evt : InstanceEvent D) (n : ℕ) (hs : s.Sound) (hopen : s.closed = false)
    (hroom : 0 < s.ch.room) :
    Gets s (s.offer evt n) [evt] 1 := by
  have hch : (s.ch.read n).closed = false := by rw [Chan.closed_read, hs.flag, hopen]
  have hless : 0 < (s.ch.read n).room := Nat.lt_of_lt_of_le hroom Chan.room_le_read
  have hsent := Chan.trySend_of_room (a := evt) hch hless
  have hoffer : s.offer evt n =
      { s with
        ch := { s.ch.read n with buffer := (s.ch.read n).buffer ++ [evt] }
        dropped := false } := by
    rw [offer, hsent]
    rfl
  rw [hoffer]
  refine ⟨?_, ?_, rfl, hopen, hch⟩
  · rw [Chan.contents_push, Chan.contents_read]
  · rw [Chan.room_push]
    have := @Chan.room_le_read _ s.ch n
    omega

/-- A subscriber that has room for an event, and for a marker if one is due, is sent it. -/
lemma send_gets (evt marker : InstanceEvent D) (pace : ℕ × ℕ) (hs : s.Sound)
    (hopen : s.closed = false)
    (hroom : s.dropped.toNat < s.ch.room) :
    ∃ l, Gets s (s.send evt marker pace) (l ++ [evt]) (s.dropped.toNat + 1) := by
  rw [send, if_neg (by simp [hopen])]
  cases hd : s.dropped with
  | false =>
    rw [hd] at hroom
    exact ⟨[], offer_gets evt pace.2 hs hopen hroom⟩
  | true =>
    rw [hd] at hroom
    have hroom : 1 < s.ch.room := hroom
    have hch : (s.ch.read pace.1).closed = false := by rw [Chan.closed_read, hs.flag, hopen]
    have hread := @Chan.room_le_read _ s.ch pace.1
    have hsent :=
      Chan.trySend_of_room (a := marker) hch (Nat.lt_of_lt_of_le (Nat.zero_lt_of_lt hroom) hread)
    rw [if_pos rfl, hsent]
    have hs₁ : Sound { s with
        ch := { s.ch.read pace.1 with buffer := (s.ch.read pace.1).buffer ++ [marker] }
        dropped := false } :=
      { hs with }
    have hroom₁ : s.ch.room ≤ Chan.room
        { s.ch.read pace.1 with buffer := (s.ch.read pace.1).buffer ++ [marker] } + 1 := by
      rw [Chan.room_push]
      omega
    have hgets := offer_gets evt pace.2 hs₁ hopen
      (Nat.lt_of_succ_lt_succ (Nat.lt_of_lt_of_le hroom hroom₁))
    refine ⟨[marker], ?_, ?_, hgets.dropped, hgets.closed, hgets.flag⟩
    · rw [hgets.contents]
      rw [Chan.contents_push, Chan.contents_read, append_assoc]
    · have := hgets.room
      simp only [Bool.toNat_true] at *
      omega

lemma contents_close : s.close.ch.contents = s.ch.contents := by
  rw [Sub.close]
  split
  · rfl
  · exact Chan.contents_close

/-- With room for all of it, the outcome reaches the subscriber before it is closed. -/
lemma finish_gets {e : InstanceEvent D} {extra : Option (InstanceEvent D)}
    {pace' : ℕ × ℕ} (hs : s.Sound)
    (hopen : s.closed = false) (hroom : extra.toList.length + 1 + s.dropped.toNat ≤ s.ch.room) :
    ∀ e' ∈ e :: extra.toList, e' ∈ (s.finish e extra marker pace pace').ch.contents := by
  obtain ⟨l, hgets⟩ := send_gets e marker pace hs hopen (by omega)
  have hfirst : e ∈ (s.send e marker pace).ch.contents := by
    rw [hgets.contents]
    simp
  intro e' he'
  cases extra with
  | none =>
    show e' ∈ (s.send e marker pace).close.ch.contents
    rw [contents_close, mem_singleton.1 he']
    exact hfirst
  | some x =>
    have hroom₁ : (s.send e marker pace).dropped.toNat < (s.send e marker pace).ch.room := by
      have hroom₁ := hgets.room
      rw [hgets.dropped]
      simp only [toList_some, length_singleton, Bool.toNat_false] at *
      omega
    obtain ⟨l', hgets'⟩ :=
      send_gets x marker pace' (subKeeps_sound.send s e marker pace hs) hgets.closed hroom₁
    show e' ∈ ((s.send e marker pace).send x marker pace').close.ch.contents
    rw [contents_close, hgets'.contents, mem_append]
    rcases mem_cons.1 he' with rfl | he'
    · exact .inl hfirst
    · refine .inr (mem_append_right l' ?_)
      exact he'

@[simp] lemma closed_send : (s.send evt marker pace).closed = s.closed := by
  rw [send]
  split
  · rfl
  · split
    · split <;> rfl
    · rfl

@[simp] lemma instanceID_send : (s.send evt marker pace).instanceID = s.instanceID := by
  rw [send]
  split
  · rfl
  · split
    · split <;> rfl
    · rfl

@[simp] lemma ending_send : (s.send evt marker pace).ending = s.ending := by
  rw [send]
  split
  · rfl
  · split
    · split <;> rfl
    · rfl

@[simp] lemma ending_close : s.close.ending = s.ending := by
  rw [Sub.close]
  split <;> rfl

end Sub

/-- What a subscriber was told at the end it has been told. -/
lemma subKeeps_told : SubKeeps (fun s : Sub D => s.Sound ∧ s.Told) where
  send := fun s evt marker pace ⟨hs, ht⟩ => by
    refine ⟨subKeeps_sound.send s evt marker pace hs, fun o ho => ?_⟩
    rw [Sub.ending_send] at ho
    rw [Sub.send, if_pos (hs.ended (ho ▸ rfl))]
    exact ht o ho
  close := fun s ⟨hs, ht⟩ => by
    refine ⟨subKeeps_sound.close s hs, fun o ho => ?_⟩
    rw [Sub.ending_close] at ho
    rw [Sub.contents_close]
    exact ht o ho
  read := fun s n ⟨hs, ht⟩ => by
    refine ⟨subKeeps_sound.read s n hs, fun o ho => ?_⟩
    rw [Chan.contents_read]
    exact ht o ho
  early := fun id cap evts => ⟨subKeeps_sound.early id cap evts, nofun⟩
  late := fun id cap evts => ⟨subKeeps_sound.late id cap evts, nofun⟩

/-- The subscribers of a record are open, and its own. -/
def Topics.Attached (t : Topics D) : Prop :=
  ∀ id r, t.insts id = some r → r.subs.Nodup ∧
    ∀ i ∈ r.subs, ∃ s, t.subs[i]? = some s ∧ s.instanceID = id ∧ s.closed = false

namespace Topics

variable {id : String} {f : ℕ → Sub D → Sub D}

/-- Subscribers change, but stay open and where they are. -/
lemma Attached.mapIdx (h : t.Attached) (hinsts : t'.insts = t.insts)
    (hsubs : t'.subs = t.subs.mapIdx f) (hf : ∀ i s, (f i s).instanceID = s.instanceID ∧
    (f i s).closed = s.closed) :
    t'.Attached := by
  intro id r hr
  obtain ⟨hnodup, hopen⟩ := h id r (hinsts ▸ hr)
  refine ⟨hnodup, fun i hi => ?_⟩
  obtain ⟨s, hs, hid, hclosed⟩ := hopen i hi
  refine ⟨f i s, ?_, (hf i s).1.trans hid, (hf i s).2.trans hclosed⟩
  rw [hsubs, getElem?_mapIdx, hs]
  rfl

lemma Attached.record (h : t.Attached) (id : String) : (t.recordLocked id).subs.Nodup ∧
    ∀ i ∈ (t.recordLocked id).subs, ∃ s, t.subs[i]? = some s ∧ s.instanceID = id ∧
    s.closed = false := by
  rw [recordLocked]
  cases hr : t.insts id with
  | none => exact ⟨.nil, fun i hi => absurd hi not_mem_nil⟩
  | some r => exact h id r hr

/-- A record is written that has the subscribers it had. -/
lemma Attached.insts (h : t.Attached) (id : String) (hr : r.subs = (t.recordLocked id).subs) :
    ({ t with insts := update t.insts id (some r) } : Topics D).Attached := by
  intro id' r' hr'
  dsimp only at hr'
  rw [update_apply] at hr'
  split at hr'
  · rename_i hid
    cases hr'
    subst hid
    rw [hr]
    exact h.record id'
  · exact h id' r' hr'

/-- A new subscriber. -/
lemma Attached.grow (h : t.Attached) (s : Sub D) :
    ({ t with subs := t.subs ++ [s] } : Topics D).Attached := by
  intro id r hr
  refine ⟨(h id r hr).1, fun i hi => ?_⟩
  obtain ⟨s', hs', hrest⟩ := (h id r hr).2 i hi
  refine ⟨s', ?_, hrest⟩
  rw [List.getElem?_append_left (List.getElem?_eq_some_iff.1 hs').1]
  exact hs'

/-- The newest subscriber is attached to its record. -/
lemma Attached.join {s : Sub D} (h : t.Attached)
    (hr : r.subs = (t.recordLocked id).subs ++ [t.subs.length])
    (hid : s.instanceID = id) (hopen : s.closed = false) :
    ({ t with insts := update t.insts id (some r), subs := t.subs ++ [s] } :
      Topics D).Attached := by
  intro id' r' hr'
  dsimp only at hr' ⊢
  rw [update_apply] at hr'
  split at hr'
  · rename_i heq
    cases hr'
    obtain ⟨hnodup, hopen'⟩ := h.record id
    rw [hr, heq]
    constructor
    · refine hnodup.append (nodup_singleton _) ?_
      rw [disjoint_singleton]
      intro hmem
      obtain ⟨s', hs', -⟩ := hopen' _ hmem
      exact absurd (List.getElem?_eq_some_iff.1 hs').1 (lt_irrefl _)
    · intro i hi
      rcases mem_append.1 hi with hi | hi
      · exact ((h.grow s).record id).2 i hi
      · rw [mem_singleton.1 hi, getElem?_concat_length]
        exact ⟨s, rfl, hid, hopen⟩
  · exact (h.grow s) id' r' hr'

/-- Subscribers of one instance change and are detached. -/
lemma Attached.detach {l : List ℕ} (h : t.Attached) (id : String) (hr : r.subs.Nodup)
    (hsub : ∀ i ∈ r.subs, i ∈ (t.recordLocked id).subs ∧ i ∉ l)
    (hl : ∀ i ∈ l, i ∈ (t.recordLocked id).subs) :
    ({ t with
        insts := update t.insts id (some r)
        subs := t.subs.mapIdx fun i s => if i ∈ l then f i s else s } : Topics D).Attached := by
  intro id' r' hr'
  dsimp only at hr' ⊢
  have hkeep {i : ℕ} (hi : i ∉ l) {s : Sub D} (hs : t.subs[i]? = some s) :
      (t.subs.mapIdx fun i s => if i ∈ l then f i s else s)[i]? = some s := by
    rw [getElem?_mapIdx, hs, map_some, if_neg hi]
  rw [update_apply] at hr'
  split at hr'
  · rename_i heq
    cases hr'
    refine ⟨hr, fun i hi => ?_⟩
    obtain ⟨s, hs, hrest⟩ := (h.record id).2 i (hsub i hi).1
    exact ⟨s, hkeep (hsub i hi).2 hs, heq ▸ hrest⟩
  · rename_i hne
    refine ⟨(h id' r' hr').1, fun i hi => ?_⟩
    obtain ⟨s, hs, hid, hopen⟩ := (h id' r' hr').2 i hi
    refine ⟨s, hkeep (fun hil => hne ?_) hs, hid, hopen⟩
    -- one subscriber has one instance
    obtain ⟨s', hs', hid', -⟩ := (h.record id).2 i (hl i hil)
    rw [hs] at hs'
    cases hs'
    rw [← hid, hid']

lemma Attached.finish {wire : Wire D} {now retention : Int} {pace pace' : Pace}
    {o : Outcome D} (h : t.Attached)
    (hlive : (t.recordLocked id).finished = false) :
      (t.finishLocked wire retention now pace pace' id o).Attached := by
  rw [finishLocked_eq hlive]
  have hdetach := h.detach id (l := (t.recordLocked id).subs)
    (r := (t.recordLocked id).finish (t.stamp wire now id (.lifecycle o.phase))
      (t.extraEvent wire now id o)
      (now + retention))
    (f := fun i s => s.finish (t.stamp wire now id (.lifecycle o.phase))
      (t.extraEvent wire now id o) (dropMarker id now)
      (pace i) (pace' i)) .nil (fun i hi => absurd hi not_mem_nil) (fun i hi => hi)
  exact hdetach

lemma Op.attached (h : t.Op t') (ht : t.Attached) : t'.Attached := by
  cases h with
  | publish wire now pace id body hbody =>
    refine (ht.insts id (r := (t.recordLocked id).retain (t.stamp wire now id body))
      Instance.subs_retain).mapIdx
      rfl rfl fun i s => ?_
    split
    · exact ⟨Sub.instanceID_send, Sub.closed_send⟩
    · exact ⟨rfl, rfl⟩
  | submit id key ck hid =>
    refine ht.insts id ?_
    rw [recordLocked, hid]
    rfl
  | subscribe cap now id =>
    rw [subscribeToInstance]
    split
    · rename_i hid
      refine ht.join ?_ rfl rfl
      rw [recordLocked, hid]
      rfl
    · rename_i r hid
      split
      · exact ht.grow _
      · refine ht.join ?_ rfl rfl
        rw [recordLocked, hid]
        rfl
  | unsubscribe i =>
    rw [Topics.unsubscribe]
    split
    · exact ht
    · rename_i s hs
      split
      · rename_i hattached
        obtain ⟨r, hr, hi⟩ := (any_eq_true _ _).1 hattached
        have hrecord : t.recordLocked s.instanceID = r := by rw [recordLocked, hr]; rfl
        have hset : t.subs.set i s.close = t.subs.mapIdx fun j s' =>
            if j ∈ [i] then s'.close else s' := by
          refine ext_getElem? fun j => ?_
          rw [getElem?_set, getElem?_mapIdx]
          split
          · rename_i hij
            rw [if_pos (List.getElem?_eq_some_iff.1 hs).1, ← hij, hs]
            simp
          · rename_i hij
            simp [Ne.symm hij]
        have hi : i ∈ r.subs := of_decide_eq_true hi
        have hnodup := (ht _ r hr).1
        rw [hset]
        refine ht.detach s.instanceID (hrecord ▸ hnodup.erase i) (fun j hj => ?_) (fun j hj => ?_)
        · rw [hrecord] at hj ⊢
          exact ⟨mem_of_mem_erase hj,
            fun hji => (hnodup.mem_erase_iff.1 hj).1 (mem_singleton.1 hji)⟩
        · rw [mem_singleton.1 hj, hrecord]
          exact hi
      · exact ht
  | read i n =>
    refine ht.mapIdx (f := fun j s => if i = j then { s with ch := s.ch.read n } else s) rfl
      ?_ fun j s => ?_
    · refine ext_getElem? fun j => ?_
      rw [Topics.read, getElem?_modify, getElem?_mapIdx]
      rfl
    · split <;> exact ⟨rfl, rfl⟩
  | sweep now => exact fun id r hr => ht id r (filter_eq_some_iff.1 hr).1
  | close =>
    intro id r hr
    obtain ⟨r₀, -, rfl⟩ := map_eq_some_iff.1 hr
    exact ⟨.nil, fun i hi => absurd hi not_mem_nil⟩

end Topics

lemma Step.attached (h : Step cfg w a w') (hw : w.topics.Attached) : w'.topics.Attached := by
  rcases h.ops with hops | ⟨c, id, o, -, -, hlive, htopics⟩
  · exact Topics.ops_induction (I := Topics.Attached) (fun _ _ hop => hop.attached) hops hw
  · exact htopics ▸ hw.finish hlive

lemma length_extraEvent {wire : Wire D} {o : Outcome D} :
    (t.extraEvent wire now id o).toList.length = o.extra.toList.length := by
  rw [Topics.extraEvent]
  cases o.extra <;> rfl

/-- If there is always room when an instance finishes, every subscriber learns the outcome. -/
theorem outcome_told (cfg : Config D) (as : List (Action D))
    (h : (machine cfg).Along Roomy .new as) :
    (machine cfg).Always (fun w => ∀ s ∈ w.topics.subs, s.Told) .new as := by
  have hinv :=
    h.always (I := fun w => w.topics.Attached ∧ w.topics.AllSubs fun s => s.Sound ∧ s.Told) ?_ ?_
  · exact hinv.imp fun w hw s hs => (hw.2 s hs).2
  · intro w a w' hR ⟨hattached, hsubs⟩ hstep
    have hs := Step.of_step hstep
    refine ⟨hs.attached hattached, hs.allSubs subKeeps_told hsubs ?_⟩
    intro c id o ha hopen hlive i s hi hsi ⟨hsound, _⟩
    obtain ⟨s', hs', -, hsopen⟩ := (hattached.record id).2 i hi
    rw [hsi] at hs'
    cases hs'
    refine ⟨hsound.finish _ _ _ _ _, fun o' ho' => .inl ?_⟩
    cases ho'
    refine Sub.finish_gets hsound hsopen ?_
    rw [length_extraEvent]
    exact hR c id o ha hopen hlive i s hi hsi
  · exact ⟨fun _ _ hr => (some_ne_none _ hr.symm).elim, fun _ hs => absurd hs not_mem_nil⟩

/-- A broker with the smallest buffers. -/
def tightConfig : Config Unit := { sampleConfig with eventBufferSize := 2 }

/-- A client subscribes and does not read; the instance runs and completes. -/
def sampleSlow : List (Action Unit) :=
  sampleTake ++ [.fetch (.loop 0 .hand), .subscribeToInstance 2 "i",
    .report (sampleCall 3) "i" .running,
    .report (sampleCall 4) "i" (.finished (.completed ()))]

/-- The buffer is full, and the subscriber is not told how the instance ended. -/
theorem outcome_untold : ∃ w, (machine tightConfig).exec .new sampleSlow = some w ∧
    ¬ ∀ s ∈ w.topics.subs, s.Told := by
  obtain ⟨w, h, s, hs, o, ho, ⟨e, he, hlost⟩, hlast⟩ : ∃ w,
      (machine tightConfig).exec .new sampleSlow = some w ∧
      ∃ s ∈ w.topics.subs, ∃ o, s.ending = some o ∧ (∃ e ∈ o, e ∉ s.ch.contents) ∧
        s.ch.contents.getLast?.bind InstanceEvent.phase = some .running :=
    ⟨_, rfl, _, mem_singleton_self _, _, rfl, ⟨_, mem_cons_self, by decide⟩, rfl⟩
  refine ⟨w, h, fun htold => ?_⟩
  rcases htold s hs o ho with hall | ⟨id, now, hmarker⟩
  · exact hlost (hall e he)
  · rw [hmarker] at hlast
    cases hlast

/-- The same run with a reader that has read when the instance completes. -/
def sampleQuick : List (Action Unit) :=
  sampleTake ++ [.fetch (.loop 0 .hand), .subscribeToInstance 2 "i",
    .report (sampleCall 3) "i" .running, .read 0 2,
    .report (sampleCall 4) "i" (.finished (.completed ()))]

/-- Every subscriber has room for two more events, and for a marker if one is due. -/
def spacious (w : World D) : Bool := w.topics.subs.all fun s => 2 + s.dropped.toNat ≤ s.ch.room

lemma roomy_of_spacious (h : spacious w) : Roomy w a := by
  intro c id o _ _ _ i s _ hs
  have hroom : 2 + s.dropped.toNat ≤ s.ch.room := by
    simpa using all_eq_true.1 h s (mem_of_getElem? hs)
  have hlen : o.extra.toList.length ≤ 1 := by cases o <;> simp [Outcome.extra]
  omega

/-- The subscriber reads in time, and is told. -/
theorem outcome_told_quick : (machine tightConfig).Along Roomy .new sampleQuick ∧
    (machine tightConfig).Always (fun w => ∀ s ∈ w.topics.subs, s.Told) .new sampleQuick := by
  have hroomy : (machine tightConfig).Along Roomy .new sampleQuick := by
    refine Machine.along_of_checks (p := fun w a => match a with
        | .report _ _ (.finished _) => spacious w
        | .cancel _ _ _ => false
        | _ => true) (fun w a h => ?_) rfl
    split at h
    · exact roomy_of_spacious h
    · cases h
    · rename_i hreport hcancel
      intro c id o ha
      cases ha with
      | report => exact absurd rfl (hreport _ _ _)
      | cancel => exact absurd rfl (hcancel _ _ _)
  exact ⟨hroomy, outcome_told tightConfig sampleQuick hroomy⟩

/-! ## Markers for dropped events -/

/-- What becomes of an event that is sent to a subscriber: whether it is put into the
channel, and the marker that is put there before it. -/
structure Delivery (D : Type) where
  evt : InstanceEvent D
  marker : Option (InstanceEvent D)
  put : Bool

namespace Delivery

def contents (d : Delivery D) : List (InstanceEvent D) :=
  d.marker.toList ++ if d.put then [d.evt] else []

/-- The deliveries may follow each other; the flags say whether a marker is due before and
after them. -/
def Due : Bool → List (Delivery D) → Bool → Prop
  | u, [], v => u = v
  | u, d :: l, v => (d.marker.isSome → u) ∧ (d.put → u → d.marker.isSome) ∧ Due (!d.put) l v

variable {l l' : List (Delivery D)} {u v : Bool}

lemma due_append : Due u (l ++ l') v ↔ ∃ w, Due u l w ∧ Due w l' v := by
  induction l generalizing u with
  | nil => simp [Due]
  | cons d l ih => simp [Due, ih, and_assoc]

lemma lost_iff_marked (h : Due u l v) :
    (u = true ∨ ∃ d ∈ l, d.put = false) ↔ (v = true ∨ ∃ d ∈ l, d.marker.isSome) := by
  induction l generalizing u with
  | nil =>
    cases h
    simp
  | cons d l ih =>
    obtain ⟨hm, hp, h⟩ := h
    have := ih h
    grind

end Delivery

namespace Sub

/-- What a call of `send` on an open subscriber does with the event. -/
def delivery (s : Sub D) (evt marker : InstanceEvent D) (pace : ℕ × ℕ) : Delivery D :=
  ⟨evt, if s.dropped && ((s.ch.read pace.1).trySend marker).1 then some marker else none,
    !(s.send evt marker pace).dropped⟩

/-- A number of calls of `send`, each with its time and with what is read meanwhile. -/
def sendAll (s : Sub D) : List (InstanceEvent D × Int × (ℕ × ℕ)) → Sub D × List (Delivery D)
  | [] => (s, [])
  | (evt, now, pace) :: calls =>
    let (s', l) := (s.send evt (dropMarker s.instanceID now) pace).sendAll calls
    (s', s.delivery evt (dropMarker s.instanceID now) pace :: l)

variable {s : Sub D} (calls : List (InstanceEvent D × Int × (ℕ × ℕ)))

lemma contents_offer (hs : s.ch.closed = false) (n : ℕ) :
    (s.offer evt n).ch.contents = s.ch.contents ++ if !(s.offer evt n).dropped
      then [evt] else [] := by
  rw [offer, Chan.trySend_of_open (Chan.closed_read.trans hs)]
  by_cases hroom : 0 < (s.ch.read n).room
  · rw [if_pos hroom]
    exact Chan.contents_push.trans (by rw [Chan.contents_read]; rfl)
  · rw [if_neg hroom]
    exact Chan.contents_read.trans (append_nil _).symm

lemma delivery_spec (evt marker : InstanceEvent D) (pace : ℕ × ℕ) (hs : s.Sound)
    (hopen : s.closed = false) :
    (s.send evt marker pace).ch.contents = s.ch.contents ++ (s.delivery evt marker pace).contents ∧
      ((s.delivery evt marker pace).marker.isSome → s.dropped) ∧
      ((s.delivery evt marker pace).put → s.dropped →
      (s.delivery evt marker pace).marker.isSome) := by
  have hch : s.ch.closed = false := by rw [hs.flag, hopen]
  simp only [delivery, Delivery.contents, send, hopen, Bool.false_eq_true, if_false]
  by_cases hd : s.dropped = true
  · rw [Chan.trySend_of_open (Chan.closed_read.trans hch), if_pos hd, hd]
    by_cases hroom : 0 < (s.ch.read pace.1).room
    · rw [if_pos hroom]
      refine ⟨(contents_offer (by exact hch) _).trans ?_, fun _ => rfl, fun _ _ => rfl⟩
      rw [Chan.contents_push, Chan.contents_read, append_assoc]
      rfl
    · -- no room for the marker: the event is lost as well
      rw [if_neg hroom]
      simp
  · rw [if_neg hd, Bool.eq_false_iff.2 hd]
    exact ⟨contents_offer hch _, by simp, by simp⟩

lemma sendAll_spec (hs : s.Sound) (hopen : s.closed = false) :
    (s.sendAll calls).1.ch.contents = s.ch.contents ++
      (s.sendAll calls).2.flatMap Delivery.contents ∧
      Delivery.Due s.dropped (s.sendAll calls).2 (s.sendAll calls).1.dropped ∧
      (s.sendAll calls).2.map Delivery.evt = calls.map (·.1) := by
  induction calls generalizing s with
  | nil => exact ⟨(append_nil _).symm, rfl, rfl⟩
  | cons c calls ih =>
    obtain ⟨evt, now, pace⟩ := c
    obtain ⟨hc, hm, hp⟩ := delivery_spec evt (dropMarker s.instanceID now) pace hs hopen
    obtain ⟨hcs, hdue, hevt⟩ :=
      ih (subKeeps_sound.send s evt (dropMarker s.instanceID now) pace hs) (closed_send.trans hopen)
    refine ⟨?_, ⟨hm, hp, ?_⟩, congrArg (evt :: ·) hevt⟩
    · exact hcs.trans (by rw [hc, append_assoc]; rfl)
    · rw [delivery, Bool.not_not]
      exact hdue

/-- Markers tell exactly of the events that were dropped.  Whatever the size of the buffer
and however much is read in between, the events in the channel are among those sent, in
their order; there is a marker between two of them when an event sent between them was
dropped, and only then; and the first marker comes after a drop. -/
theorem markers_exact (id : String) (cap : ℕ) (first : List (InstanceEvent D)) :
    let (s, l) := sendAll ⟨id, { Chan.make cap with buffer := first }, false, false, none⟩ calls
    s.ch.contents = first ++ l.flatMap Delivery.contents ∧ l.map Delivery.evt = calls.map (·.1) ∧
      (l.filter Delivery.put).map Delivery.evt <+ calls.map (·.1) ∧
      (∀ a d b d' c, l = a ++ d :: (b ++ d' :: c) → d.put → d'.put →
        ((∃ x ∈ b ++ [d'], x.marker.isSome) ↔ ∃ x ∈ b, x.put = false)) ∧
      ∀ a d b, l = a ++ d :: b → d.marker.isSome → ∃ x ∈ a, x.put = false := by
  obtain ⟨hc, hdue, hevt⟩ := sendAll_spec calls (subKeeps_sound.early id cap first) rfl
  refine ⟨hc, hevt, hevt ▸ filter_sublist.map _, fun a d b d' c hl hput hput' =>
    ?_, fun a d b hl hm => ?_⟩
  · simp only [hl, Delivery.due_append, Delivery.Due, hput] at hdue
    obtain ⟨_, -, -, -, w, hw, hm, hp, -⟩ := hdue
    have := Delivery.lost_iff_marked hw
    cases w <;> simp_all [or_and_right, exists_or]
  · simp only [hl, Delivery.due_append, Delivery.Due] at hdue
    obtain ⟨w, hw, hm', -⟩ := hdue
    simpa [hm' hm] using Delivery.lost_iff_marked hw

end Sub

end Broker

end Blkit
