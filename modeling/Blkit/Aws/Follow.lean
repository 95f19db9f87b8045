import Blkit.Aws.Final

/-!
# Subscribers that follow an instance to its end

A subscriber whose queue gets all that is published, and who reads fast enough, is told the
final event if and only if it was published.
-/

namespace Blkit

namespace Aws

open Broker Prog List

variable {D B : Type} {codec : EventCodec D B} {id : String} {o : Outcome D}

/-- What happens to a pump. -/
inductive PumpAction (B : Type) where
  | message (now : Int) (m : Message B)
  | read (n : ℕ)

namespace Pump

variable (codec) in
def step (p : Pump D) : PumpAction B → Pump D
  | .message now m => p.receive codec now m
  | .read n => { p with chan := p.chan.read n }

variable (codec) in
def run (p : Pump D) (acts : List (PumpAction B)) : Pump D := acts.foldl (step codec) p

variable (codec) in
/-- Whenever a message comes there is room for it, and for a marker if one is due. -/
def KeepsUp : Pump D → List (PumpAction B) → Prop
  | _, [] => True
  | p, act :: acts => (∀ now m, act = .message now m → p.chan.closed = false →
      (if p.dropped then 2 else 1) ≤ p.chan.room) ∧ KeepsUp (p.step codec act) acts

end Pump

/-- The messages that come out of the queue. -/
def received (acts : List (PumpAction B)) : List (Message B) :=
  acts.filterMap fun
    | .message _ m => some m
    | .read _ => none

variable (id o) in
/-- The channel is closed, and the final event is the last that was sent. -/
def Told (p : Pump D) : Prop :=
  p.chan.closed = true ∧ ∃ corr now f, p.chan.contents.getLast? =
    some ((⟨id, corr, finalBody o, now⟩ : InstanceEvent D).map f)

/-- A subscriber who follows the instance: the record is the one from which the replay was, and
all that was published so far has a number from it. -/
structure Follows (id : String) (s : Cloud B) (p : Pump D) : Prop where
  running : p.chan.closed = false
  replayed : p.replayedSeq ≤ (s.record id).seq
  seen : ∀ n ∈ p.seen, n ≤ (s.record id).seq
  earlier : ∀ m ∈ s.topic, m.inst = id → m.seq ≤ (s.record id).seq ∧ m.final = false

/-- The queue has delivered messages of the instance only, and all that are new. -/
structure Served (id : String) (s s' : Cloud B) (acts : List (PumpAction B)) : Prop where
  only : ∀ m ∈ received acts, m ∈ s'.topic ∧ m.inst = id
  all : ∀ new, s'.topic = s.topic ++ new → ∀ m ∈ new, m.inst = id → m ∈ received acts

/-! ## What a pump does -/

namespace Pump

variable {p : Pump D} {now : Int} {evt : InstanceEvent D} {m : Message B}

lemma closed_send : (p.send evt).chan.closed = p.chan.closed := Chan.closed_trySend

lemma deliver_eq : p.deliver now evt = if p.dropped then
      if (p.chan.trySend (dropMarker evt.instanceID now)).1 then
        { p with
          chan := (p.chan.trySend (dropMarker evt.instanceID now)).2
          dropped := false }.send evt
      else { p with chan := (p.chan.trySend (dropMarker evt.instanceID now)).2 }
    else p.send evt := rfl

/-- What `deliver` leaves alone. -/
lemma deliver_same (p : Pump D) (now : Int) (evt : InstanceEvent D) :
    (p.deliver now evt).chan.closed = p.chan.closed ∧ (p.deliver now evt).seen = p.seen ∧
    (p.deliver now evt).replayedSeq = p.replayedSeq := by
  rw [deliver_eq]
  split
  · split
    · exact ⟨closed_send.trans Chan.closed_trySend, rfl, rfl⟩
    · exact ⟨Chan.closed_trySend, rfl, rfl⟩
  · exact ⟨closed_send, rfl, rfl⟩

lemma contents_send (hopen : p.chan.closed = false) (hroom : 0 < p.chan.room) :
    (p.send evt).chan.contents = p.chan.contents ++ [evt] := by
  rw [send, Chan.trySend_of_room hopen hroom]
  exact Chan.contents_push

/-- With room, an event is the last that is in the channel. -/
lemma last_deliver (hopen : p.chan.closed = false)
    (hroom : (if p.dropped then 2 else 1) ≤ p.chan.room) :
    (p.deliver now evt).chan.contents.getLast? = some evt := by
  rw [deliver_eq]
  split
  · rename_i hdropped
    rw [if_pos hdropped] at hroom
    rw [Chan.trySend_of_room hopen (Nat.lt_of_lt_of_le Nat.zero_lt_two hroom), if_pos rfl,
      contents_send, getLast?_concat]
    · exact hopen
    · rw [Chan.room_push]
      exact Nat.le_sub_of_add_le hroom
  · rename_i hdropped
    rw [if_neg hdropped] at hroom
    rw [contents_send hopen hroom, getLast?_concat]

variable {acts : List (PumpAction B)}

/-- A pump that has returned does nothing. -/
lemma run_of_closed (codec : EventCodec D B) (acts : List (PumpAction B)) (h : p.chan.closed) :
    (p.run codec acts).chan.closed ∧ (p.run codec acts).chan.contents = p.chan.contents := by
  induction acts generalizing p with
  | nil => exact ⟨h, rfl⟩
  | cons act acts ih =>
    obtain ⟨hclosed, hcontents⟩ :
        (p.step codec act).chan.closed ∧ (p.step codec act).chan.contents = p.chan.contents := by
      cases act with
      | message now m =>
        rw [step, receive, if_pos h]
        exact ⟨h, rfl⟩
      | read n => exact ⟨h, Chan.contents_read⟩
    obtain ⟨hclosed', hcontents'⟩ := ih hclosed
    exact ⟨hclosed', hcontents'.trans hcontents⟩

/-- An event was sent on: its number is covered from now on. -/
lemma covers_deliver {n : ℕ}
    (h :
      ({ p with seen := if 0 < m.seq then m.seq :: p.seen else p.seen }.deliver now evt).Covers n) :
    p.Covers n ∨ n = m.seq := by
  obtain ⟨-, hseen, hreplayed⟩ :=
    deliver_same { p with seen := if 0 < m.seq then m.seq :: p.seen else p.seen } now evt
  rw [Covers, hseen, hreplayed] at h
  obtain ⟨hpos, hle | hmem⟩ := h
  · exact .inl ⟨hpos, .inl hle⟩
  · have hmem : n ∈ if 0 < m.seq then m.seq :: p.seen else p.seen := hmem
    split at hmem
    · rcases mem_cons.1 hmem with rfl | hmem
      · exact .inr rfl
      · exact .inl ⟨hpos, .inr hmem⟩
    · exact .inl ⟨hpos, .inr hmem⟩

/-- A message that is not the final one. -/
lemma receive_of_not_final (codec : EventCodec D B) (now : Int) (hopen : p.chan.closed = false)
    (hm : m.final = false) :
    (p.receive codec now m).chan.closed = false ∧
      ∀ n, (p.receive codec now m).Covers n → p.Covers n ∨ n = m.seq := by
  rw [receive, if_neg (by rw [hopen]; nofun)]
  split
  · obtain ⟨hclosed, hseen, hreplayed⟩ :=
      deliver_same p now ⟨m.inst, none, .error ⟨"DECRYPTION_ERROR", _⟩, now⟩
    refine ⟨hclosed.trans hopen, fun n hn => .inl ?_⟩
    rwa [Covers, hseen, hreplayed] at hn
  · rename_i evt hevt
    split
    · exact ⟨hopen, fun n hn => .inl hn⟩
    · rw [accept, hm]
      exact ⟨(deliver_same _ now evt).1.trans hopen, fun n hn => covers_deliver hn⟩

/-- The final message. -/
lemma told_receive {corr : Option String} {time : Int} (hopen : p.chan.closed = false)
    (hroom : (if p.dropped then 2 else 1) ≤ p.chan.room) (hm : m.final) (hnew : ¬ p.Covers m.seq)
    (hbody : codec.encode ⟨id, corr, finalBody o, time⟩ = .ok m.body) : Told id o
      (p.receive codec now m) := by
  obtain ⟨f, hf⟩ := codec.decode_encode _ _ hbody
  rw [receive, if_neg (by rw [hopen]; nofun), hf]
  show Told id o (if p.Covers m.seq then p else p.accept now m _)
  rw [if_neg hnew, accept, if_pos hm]
  refine ⟨Chan.closed_close, corr, time, f, ?_⟩
  exact (congrArg getLast? Chan.contents_close).trans (last_deliver hopen hroom)

/-- Without a final message a pump goes on. -/
lemma run_of_not_final (hopen : p.chan.closed = false)
    (hall : ∀ m ∈ received acts, m.final = false) :
    (p.run codec acts).chan.closed = false := by
  induction acts generalizing p with
  | nil => exact hopen
  | cons act acts ih =>
    cases act with
    | message now m =>
      obtain ⟨hm, hrest⟩ :=
        forall_mem_cons.1 (show ∀ m' ∈ m :: received acts, m'.final = false from hall)
      exact ih (receive_of_not_final codec now hopen hm).1 hrest
    | read n => exact ih hopen hall

/-- The final message comes, and its number is new. -/
lemma told_run (hopen : p.chan.closed = false) (hkeeps : KeepsUp codec p acts)
    (hsome : ∃ m ∈ received acts, m.final)
    (hfinal : ∀ m ∈ received acts, m.final → ¬ p.Covers m.seq ∧
      ∃ corr now, codec.encode ⟨id, corr, finalBody o, now⟩ = .ok m.body)
    (hseq : ∀ m ∈ received acts, ∀ m' ∈ received acts, m.final → m'.final = false →
      m.seq ≠ m'.seq) :
    Told id o (p.run codec acts) := by
  induction acts generalizing p with
  | nil =>
    obtain ⟨m, hm, -⟩ := hsome
    exact absurd hm not_mem_nil
  | cons act acts ih =>
    obtain ⟨hroom, hkeeps⟩ := hkeeps
    cases act with
    | read n => exact ih hopen hkeeps hsome hfinal hseq
    | message now m =>
      have hcons {m' : Message B} (hm' : m' ∈ received acts) : m' ∈
          received (.message now m :: acts) := .tail _ hm'
      cases hm : m.final with
      | true =>
        obtain ⟨hnew, corr, time, hbody⟩ := hfinal m (.head _) hm
        have htold : Told id o (p.receive codec now m) :=
          told_receive hopen (hroom now m rfl hopen) hm hnew hbody
        obtain ⟨hclosed, hcontents⟩ := run_of_closed codec acts htold.1
        refine ⟨hclosed, ?_⟩
        rw [show (p.run codec (.message now m :: acts)).chan.contents = _ from hcontents]
        exact htold.2
      | false =>
        obtain ⟨hopen', hcovers⟩ := receive_of_not_final codec now hopen hm
        refine ih hopen' hkeeps ?_ (fun m' hm' hfin => ?_) fun m₁ h₁ m₂ h₂ =>
          hseq m₁ (hcons h₁) m₂ (hcons h₂)
        · obtain ⟨m', hm', hfin⟩ := hsome
          rcases mem_cons.1 (show m' ∈ m :: received acts from hm') with rfl | hm'
          · rw [hm] at hfin
            cases hfin
          · exact ⟨m', hm', hfin⟩
        · obtain ⟨hnew, hbody⟩ := hfinal m' (hcons hm') hfin
          refine ⟨fun hc => ?_, hbody⟩
          rcases hcovers m'.seq hc with hc | heq
          · exact hnew hc
          · exact hseq m' (hcons hm') m (.head _) hfin hm heq

end Pump

/-! ## Reports and subscribers -/

/-- A report is repeated until it succeeds, with one failure on the way.  A subscriber who
follows the instance, gets all messages and keeps up is told the final event if and only if
that failure does no harm. -/
theorem final_event_told_iff (codec : EventCodec D B) (id : String) (o : Outcome D) (s s' : Cloud B)
    (logs : List (List (Cmd B × Fate))) (p : Pump D) (acts : List (PumpAction B))
    (hlive : ¬ s.Finished id)
    (h : (service B).Repeats (reportEnd codec id o).run s logs s' ())
    (hsingle : SingleFailure logs.flatten)
    (hp : Follows id s p) (hserved : Served id s s' acts) (hkeeps : Pump.KeepsUp codec p acts) :
    Told id o (p.run codec acts) ↔ ∀ x ∈ logs.flatten, ¬ Harmful id x := by
  have hnum : Numbered codec id o s none s' logs.flatten :=
    upholds_numbered.repeats obeys_reportEnd (fun _ _ _ h => h.reset) .refl (l := []) h
  rw [← marks_reportEnd.done_iff h hlive hsingle, finalSent_iff]
  have hmem {m : Message B} (hm : m ∈ received acts) :
      m.final = false ∧ m.seq ≤ (s.record id).seq ∨ m ∈ sent logs.flatten := by
    obtain ⟨htopic, hinst⟩ := hserved.only m hm
    rw [hnum.topic, mem_append] at htopic
    exact htopic.imp_left fun hold => (hp.earlier m hold hinst).symm
  constructor
  · rintro ⟨hclosed, -⟩
    by_contra hnone
    have hall : ∀ m ∈ received acts, m.final = false := by
      intro m hm
      rcases hmem hm with ⟨hfinal, -⟩ | hsent
      · exact hfinal
      · rw [← Bool.not_eq_true]
        exact fun hfinal => hnone ⟨m, hsent, hnum.inst m hsent, hfinal⟩
    rw [Pump.run_of_not_final hp.running hall] at hclosed
    cases hclosed
  · rintro ⟨m, hm, hinst, hfinal⟩
    have hsent {m : Message B} (hm : m ∈ received acts) (hfinal : m.final = true) :
        m ∈ sent logs.flatten := by
      refine (hmem hm).resolve_left fun h => ?_
      rw [hfinal] at h
      cases h.1
    refine Pump.told_run hp.running hkeeps ⟨m, hserved.all _ hnum.topic m hm hinst, hfinal⟩
      (fun m hm hfinal => ?_)
      fun m₁ h₁ m₂ h₂ hf₁ hf₂ heq => ?_
    · have hlow := (hnum.range m (hsent hm hfinal)).1
      refine ⟨?_, hnum.final m (hsent hm hfinal) hfinal⟩
      rintro ⟨-, hle | hseen⟩
      · exact absurd (Nat.lt_of_lt_of_le hlow hle) (Nat.not_lt.2 hp.replayed)
      · exact absurd hlow (Nat.not_lt.2 (hp.seen _ hseen))
    · have hs₁ := hsent h₁ hf₁
      rcases hmem h₂ with ⟨-, hle⟩ | hs₂
      · rw [← heq] at hle
        exact absurd (hnum.range m₁ hs₁).1 (Nat.not_lt.2 hle)
      · rw [inj_on_of_nodup_map hnum.nodup hs₁ hs₂ heq, hf₂] at hf₁
        cases hf₁

/-- Whatever fails, what a report publishes has numbers of its own, above the record's. -/
theorem report_numbers (s : Cloud B) :
    (service B).Ensures (reportEnd codec id o).run s fun l s' _ =>
    s'.topic = s.topic ++ sent l ∧ ((sent l).map Message.seq).Nodup ∧
      ∀ m ∈ sent l, (s.record id).seq < m.seq ∧ m.seq ≤ (s'.record id).seq := by
  intro l s' a h
  obtain ⟨q, -, hnum⟩ := upholds_numbered.runs obeys_reportEnd .refl (l := []) h
  exact ⟨hnum.topic, hnum.nodup, hnum.range⟩

/-! ## A small system -/

/-- Envelopes that are what they hold. -/
def EventCodec.clear (D : Type) : EventCodec D (InstanceEvent D) where
  encode := .ok
  decode := .ok
  decode_encode := fun e b h => by
    cases h
    obtain ⟨f, hf⟩ := (Wire.clear D).event_map e
    exact ⟨f, congrArg _ hf⟩

def sampleCloud : Cloud (InstanceEvent Unit) := ⟨false, fun _ => none, [], fun _ => [], []⟩

def samplePump : Pump Unit := ⟨0, [], false, .make 64⟩

def sampleReport : Prog (Cmd (InstanceEvent Unit)) Cmd.Reply (Except Failure Unit) :=
  (reportCompleted (EventCodec.clear Unit) "i" ()).run

/-- The commands are carried out up to one, which has this fate. -/
def sampleFates (n : ℕ) (f : Fate) : List ((Bool × Int) × Fate) :=
  List.replicate n ((true, 0), .done) ++ [((true, 0), f)]

/-- The queue delivers the whole topic. -/
lemma served_topic {s s' : Cloud B} (h : ∀ m ∈ s'.topic, m.inst = id) :
    Served id s s' (s'.topic.map (.message 0)) := by
  have hreceived : received (s'.topic.map (.message 0)) = s'.topic := by
    rw [received, filterMap_map]
    exact filterMap_some
  refine ⟨fun m hm => ?_, fun new hnew m hm _ => ?_⟩
  · rw [hreceived] at hm
    exact ⟨hm, h m hm⟩
  · rw [hreceived, hnew]
    exact mem_append_right _ hm

lemma follows_sample : Follows "i" sampleCloud samplePump :=
  ⟨rfl, Nat.le_refl 0, nofun, nofun⟩

/-- The final event cannot be published, and the report that is made again succeeds. -/
theorem final_event_untold : ∃ logs s' acts, ¬ sampleCloud.Finished "i" ∧
    (service _).Repeats sampleReport sampleCloud logs s' () ∧ SingleFailure logs.flatten ∧
      Follows "i" sampleCloud samplePump ∧ Served "i" sampleCloud s' acts ∧
      Pump.KeepsUp (EventCodec.clear Unit) samplePump acts ∧
        ¬ Told "i" (.completed ()) (samplePump.run (EventCodec.clear Unit) acts) := by
  refine ⟨[_, _], _, _, ?_, .again ⟨sampleFates 9 .failed, rfl⟩ (.ok ⟨sampleFates 4 .done, rfl⟩),
    Nat.le_refl 1, follows_sample, served_topic ?_, ?_, ?_⟩
  · exact Bool.false_ne_true
  · exact forall_mem_singleton.2 rfl
  · exact ⟨fun _ _ _ _ => Nat.le_of_ble_eq_true rfl, trivial⟩
  · rintro ⟨hclosed, -⟩
    cases hclosed

/-- A step that does no harm to any instance. -/
def harmless : Cmd B × Fate → Bool
  | (.publish _, f) => f != .failed
  | (_, f) => f == .done

lemma not_harmful {x : Cmd B × Fate} (hx : harmless x) : ¬ Harmful id x := by
  intro hharm
  obtain ⟨c, f⟩ := x
  cases c with
  | publish m =>
    obtain rfl : f = .failed := hharm.2.2
    cases hx
  | updateLastEvent inst latest terminal finish =>
    obtain rfl : f = .lost := hharm.2.2
    cases hx
  | _ => exact hharm

/-- The final event is published although the reply to that is lost. -/
theorem final_event_told : ∃ logs s' acts, (service _).Repeats sampleReport sampleCloud logs s' () ∧
    Told "i" (.completed ()) (samplePump.run (EventCodec.clear Unit) acts) := by
  obtain ⟨logs, s', hrepeats, hsingle, hlog, hserved, hkeeps⟩ : ∃ logs s',
      (service _).Repeats sampleReport sampleCloud logs s' () ∧ SingleFailure logs.flatten ∧
      logs.flatten.all harmless ∧
        Served "i" sampleCloud s' (s'.topic.map (.message 0)) ∧
        Pump.KeepsUp (EventCodec.clear Unit) samplePump (s'.topic.map (.message 0)) := by
    refine ⟨[_, _], _, .again ⟨sampleFates 9 .lost, rfl⟩ (.ok ⟨sampleFates 4 .done, rfl⟩),
      Nat.le_refl 1, rfl, served_topic ?_, ?_⟩
    · exact forall_mem_cons.2 ⟨rfl, forall_mem_singleton.2 rfl⟩
    · exact ⟨fun _ _ _ _ => Nat.le_of_ble_eq_true rfl, fun _ _ _ _ =>
        Nat.le_of_ble_eq_true rfl, trivial⟩
  refine ⟨_, _, _, hrepeats,
    (final_event_told_iff (EventCodec.clear Unit) "i" (.completed ()) sampleCloud s' _
    samplePump _ Bool.false_ne_true hrepeats hsingle follows_sample hserved hkeeps).2
      fun x hx => ?_⟩
  exact not_harmful (all_eq_true.1 hlog x hx)

end Aws

end Blkit
