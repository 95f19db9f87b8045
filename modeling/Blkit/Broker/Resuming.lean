import Blkit.Broker.Records

/-!
# Resuming on behalf of the right suspension

A resume job should be enqueued on behalf of the latest suspension of its instance, if that
gave a resume time and nothing was reported since, and once.  In the log of the instance this
means that the mark of a resume job stands right behind the mark of the suspension whose
timer has enqueued it (`Timely`).

A timer is stopped by the next suspension that gives a resume time and by the end of the
instance, not by a report that it runs or by a suspension without a resume time; and a
callback that waits for the lock is not stopped by anything.  So the log is timely when no
timer is live at the former, no callback waits at a new suspension, and no record is purged
while a callback for it waits (`resumes_timely`).
-/

namespace Blkit

open List Function

namespace Broker

/-! ## The log -/

/-- The last mark of an instance. -/
def lastMark (log : List Mark) (id : String) : Option Mark :=
  (log.filter fun m => m.instanceID = id).getLast?

variable {log : List Mark} {m : Mark} {id : String}

lemma lastMark_append :
    lastMark (log ++ [m]) id = if m.instanceID = id then some m else lastMark log id := by
  rw [lastMark, filter_append]
  split
  · rename_i h
    simp [h]
  · rename_i h
    simp [h, lastMark]

/-- Every resume job is enqueued right after the suspension whose timer has enqueued it, and
once. -/
structure Timely (log : List Mark) : Prop where
  latest : ∀ (k : ℕ) (id : String) (n : ℕ), log[k]? = some (.resumed id n) →
    lastMark (log.take k) id = some (.suspended id (some n))
  once : ∀ (k k' : ℕ) (id : String) (n : ℕ), log[k]? = some (.resumed id n) →
    log[k']? = some (.resumed id n) → k = k'

/-- One more mark, which is not a resume job or a new one for the latest suspension. -/
lemma Timely.append (h : Timely log)
    (hm : ∀ id n, m = .resumed id n → lastMark log id = some (.suspended id (some n)) ∧ m ∉ log) :
      Timely (log ++ [m]) := by
  have hnew {k : ℕ} {x : Mark} (hk : (log ++ [m])[k]? = some x) :
      log[k]? = some x ∧ k < log.length ∨ k = log.length ∧ x = m := by
    by_cases hlt : k < log.length
    · rw [getElem?_append_left hlt] at hk
      exact .inl ⟨hk, hlt⟩
    · have hlen : k = log.length := by
        have hk' := (List.getElem?_eq_some_iff.1 hk).1
        rw [length_append, length_singleton] at hk'
        omega
      rw [hlen, getElem?_concat_length] at hk
      exact .inr ⟨hlen, (Option.some.inj hk).symm⟩
  refine ⟨fun k id n hk => ?_, fun k k' id n hk hk' => ?_⟩
  · rcases hnew hk with ⟨hold, hlt⟩ | ⟨rfl, rfl⟩
    · rw [take_append_of_le_length (Nat.le_of_lt hlt)]
      exact h.latest k id n hold
    · rw [take_left]
      exact (hm id n rfl).1
  · rcases hnew hk with ⟨hold, -⟩ | ⟨rfl, rfl⟩
    · rcases hnew hk' with ⟨hold', -⟩ | ⟨-, rfl⟩
      · exact h.once k k' id n hold hold'
      · exact absurd (mem_of_getElem? hold) (hm id n rfl).2
    · rcases hnew hk' with ⟨hold', -⟩ | ⟨rfl, -⟩
      · exact absurd (mem_of_getElem? hold') (hm id n rfl).2
      · rfl

/-! ## Live timers -/

namespace Resumes

variable {r r' : Resumes} {n m : ℕ} {id id' : String} {Over Over' : String → Prop} {st : TimerState}

/-- The timer is armed, or its callback waits. -/
def Live (r : Resumes) (n : ℕ) (id : String) : Prop :=
  ∃ st : TimerState, r.timers[n]? = some ⟨id, st⟩ ∧ st ≠ .spent

/-- The callback of the timer waits. -/
def Waits (r : Resumes) (n : ℕ) (id : String) : Prop := r.timers[n]? = some ⟨id, .due⟩

/-- The live timer of an instance, if there is one, is that of its latest report, or its
callback waits and the instance is over. -/
structure Ok (r : Resumes) (Over : String → Prop) : Prop where
  timely : Timely r.log
  armed : ∀ (n : ℕ) (id : String), r.timers[n]? = some ⟨id, .armed⟩ → r.pending id = some n
  latest : ∀ n id, r.Live n id → lastMark r.log id = some (.suspended id (some n)) ∨
    r.Waits n id ∧ Over id
  single : ∀ n m id, r.Live n id → r.Live m id → n = m
  done : ∀ n id, .resumed id n ∈ r.log → n < r.timers.length ∧ ¬ r.Live n id

lemma Waits.live (h : r.Waits n id) : r.Live n id := ⟨.due, h, nofun⟩

/-- A timer that is live and not armed is one whose callback waits. -/
lemma Live.waits (h : r.Live n id) (hn : r.timers[n]? ≠ some ⟨id, .armed⟩) : r.Waits n id := by
  obtain ⟨st, hst, hne⟩ := h
  cases st with
  | armed => exact absurd hst hn
  | due => exact hst
  | spent => exact absurd rfl hne

lemma ok_empty : Ok .empty Over :=
  ⟨⟨fun _ _ _ hk => (nomatch hk), fun _ _ _ _ hk => (nomatch hk)⟩, fun _ _ hn => (nomatch hn),
    fun _ _ ⟨_, hn, _⟩ => (nomatch hn),
    fun _ _ _ ⟨_, hn, _⟩ => (nomatch hn), fun _ _ hn => absurd hn not_mem_nil⟩

/-- An instance that is over stays so as long as a callback waits for it. -/
lemma Ok.mono (h : r.Ok Over) (hO : ∀ n id, r.Waits n id → Over id → Over' id) : r.Ok Over' :=
  { h with latest := fun n id hn => (h.latest n id hn).imp_right fun hw =>
    ⟨hw.1, hO n id hw.1 hw.2⟩ }

/-- A mark for an instance that has no live timer, or whose callback waits when it is over. -/
lemma Ok.note {mk : Mark} (h : r.Ok Over)
    (hlive : ∀ n, r.Live n mk.instanceID → r.Waits n mk.instanceID ∧ Over mk.instanceID)
    (hmk : ∀ id n, mk = .resumed id n → lastMark r.log id = some (.suspended id (some n)) ∧
      mk ∉ r.log ∧
      n < r.timers.length ∧ ¬ r.Live n id) : (r.note mk).Ok Over := by
  refine ⟨h.timely.append fun id n hm => ⟨(hmk id n hm).1, (hmk id n hm).2.1⟩, h.armed,
    fun n id hn => ?_, h.single,
    fun n id hn => ?_⟩
  · show lastMark (r.log ++ [mk]) id = _ ∨ _
    rw [lastMark_append]
    split
    · rename_i hid
      subst hid
      exact .inr (hlive n hn)
    · exact h.latest n id hn
  · rcases mem_append.1 hn with hold | hnew
    · exact h.done n id hold
    · exact (hmk id n (mem_singleton.1 hnew).symm).2.2

variable {ts : Timers String}

/-- Fewer live timers. -/
lemma Ok.fewer {pending : String → Option ℕ} (h : r.Ok Over) (hlen : ts.length = r.timers.length)
    (hts : ∀ (n : ℕ) (id : String) (st : TimerState), st ≠ .spent → ts[n]? = some ⟨id, st⟩ →
      r.timers[n]? = some ⟨id, st⟩)
    (hpending : ∀ (n : ℕ) (id : String), ts[n]? = some ⟨id, .armed⟩ → pending id = some n) :
    ({ r with timers := ts, pending := pending } : Resumes).Ok Over := by
  have hlive (n : ℕ) (id : String) :
      ({ r with timers := ts, pending := pending } : Resumes).Live n id → r.Live n id :=
    fun ⟨st, hst, hne⟩ => ⟨st, hts n id st hne hst, hne⟩
  refine ⟨h.timely, hpending, fun n id hn => ?_, fun n m id hn hm =>
    h.single n m id (hlive n id hn) (hlive m id hm),
    fun n id hn => ⟨hlen ▸ (h.done n id hn).1, fun hl => (h.done n id hn).2 (hlive n id hl)⟩⟩
  refine (h.latest n id (hlive n id hn)).imp_right fun hw => ⟨hn.waits fun ha => ?_, hw.2⟩
  have := hw.1.symm.trans (hts n id .armed nofun ha)
  cases this

/-! ## What is done to the timers -/

@[simp] lemma length_stopPending : (r.stopPending id).length = r.timers.length := by
  rw [stopPending]
  cases r.pending id with
  | none => rfl
  | some m => exact Timers.length_stop

/-- What is live after the pending timer was stopped: not that one, unless its callback waits. -/
lemma live_stopPending (hst : st ≠ .spent) (h : (r.stopPending id)[n]? = some ⟨id', st⟩) :
    r.timers[n]? = some ⟨id', st⟩ ∧ (st = .armed → r.pending id ≠ some n) := by
  rw [stopPending] at h
  cases hp : r.pending id with
  | none =>
    rw [hp] at h
    exact ⟨h, fun _ => nofun⟩
  | some m =>
    rw [hp, Option.elim_some, Timers.getElem?_stop] at h
    split at h
    · obtain ⟨tm, htm, heq⟩ := Option.map_eq_some_iff.1 h
      split at heq
      · cases heq
        exact absurd rfl hst
      · rename_i hna
        subst heq
        exact ⟨htm, fun ha => absurd ha hna⟩
    · rename_i hmn
      exact ⟨h, fun _ heq => hmn (Option.some.inj heq)⟩

/-- The timers after the pending one of an instance was stopped and forgotten. -/
def drop (r : Resumes) (id : String) : Resumes :=
  { r with timers := r.stopPending id, pending := Function.update r.pending id none }

lemma not_armed_drop (h : r.Ok Over) : (r.drop id).timers[n]? ≠ some ⟨id, .armed⟩ := by
  intro hn
  obtain ⟨hn', hp⟩ := live_stopPending (by nofun) hn
  exact hp rfl (h.armed n id hn')

lemma Ok.drop (h : r.Ok Over) : (r.drop id).Ok Over := by
  refine h.fewer length_stopPending (fun n id' st hne hst => (live_stopPending hne hst).1)
    fun n id' hn => ?_
  have hid : id' ≠ id := by
    rintro rfl
    exact not_armed_drop h hn
  rw [update_of_ne hid]
  exact h.armed n id' (live_stopPending (by nofun) hn).1

/-- The end of an instance: only callbacks that wait are left, and the instance is over. -/
lemma Ok.finish (h : r.Ok Over) (hid : Over id) : (r.finish id).Ok Over :=
  h.drop.note (fun _ hn => ⟨hn.waits (not_armed_drop h), hid⟩) nofun

/-- A new timer for an instance that has no live one. -/
lemma Ok.start (h : r.Ok Over) (hlive : ∀ n, ¬ r.Live n id) :
    Ok ⟨update r.pending id (some r.timers.length), r.timers.start id,
      r.log ++ [.suspended id (some r.timers.length)]⟩ Over := by
  have hnew {k : ℕ} {id' : String} {st : TimerState}
      (hk : (r.timers.start id)[k]? = some ⟨id', st⟩) :
      (k = r.timers.length ∧ id' = id) ∨ r.timers[k]? = some ⟨id', st⟩ := by
    rw [Timers.getElem?_start] at hk
    split at hk
    · rename_i hlen
      cases hk
      exact .inl ⟨hlen, rfl⟩
    · exact .inr hk
  refine ⟨h.timely.append nofun, fun n id' hn => ?_, fun n id' hn => ?_, fun n m id' hn hm => ?_,
    fun n id' hn => ?_⟩
  · rcases hnew hn with ⟨rfl, rfl⟩ | hold
    · exact update_self ..
    · have hid : id' ≠ id := by
        rintro rfl
        exact hlive n ⟨.armed, hold, nofun⟩
      show update _ _ _ _ = _
      rw [update_of_ne hid]
      exact h.armed n id' hold
  · obtain ⟨st, hst, hne⟩ := hn
    rw [lastMark_append]
    rcases hnew hst with ⟨rfl, rfl⟩ | hold
    · exact .inl (if_pos rfl)
    · rw [if_neg]
      · refine (h.latest n id' ⟨st, hold, hne⟩).imp_right fun hw => ⟨?_, hw.2⟩
        rw [hw.1] at hold
        cases hold
        exact hst
      · rintro rfl
        exact hlive n ⟨st, hold, hne⟩
  · obtain ⟨st, hst, hne⟩ := hn
    obtain ⟨st', hst', hne'⟩ := hm
    rcases hnew hst with ⟨rfl, rfl⟩ | hold
    · rcases hnew hst' with ⟨rfl, -⟩ | hold'
      · rfl
      · exact absurd ⟨st', hold', hne'⟩ (hlive m)
    · rcases hnew hst' with ⟨-, rfl⟩ | hold'
      · exact absurd ⟨st, hold, hne⟩ (hlive n)
      · exact h.single n m id' ⟨st, hold, hne⟩ ⟨st', hold', hne'⟩
  · have hmem : Mark.resumed id' n ∈ r.log := by simpa using hn
    obtain ⟨hlt, hdone⟩ := h.done n id' hmem
    refine ⟨by rw [Timers.length_start]; exact Nat.lt_succ_of_lt hlt, fun ⟨st, hst, hne⟩ => ?_⟩
    rcases hnew hst with ⟨rfl, -⟩ | hold
    · exact absurd hlt (Nat.lt_irrefl _)
    · exact hdone ⟨st, hold, hne⟩

/-- A suspension with a resume time stops the timer before, unless its callback waits. -/
lemma Ok.suspend (resumeAt : Int) (h : r.Ok Over) (hwaits : ∀ n, ¬ r.Waits n id) :
    (r.suspend id (some resumeAt)).Ok Over := by
  have hlive (n : ℕ) : ¬ (r.drop id).Live n id := fun hn =>
    hwaits n (live_stopPending (by nofun) (hn.waits (not_armed_drop h))).1
  have hstart := h.drop.start hlive
  have hlen : (r.drop id).timers.length = r.timers.length := length_stopPending
  have hpending : update (r.drop id).pending id (some r.timers.length) =
      update r.pending id (some r.timers.length) := update_idem ..
  rw [hlen, hpending] at hstart
  exact hstart

/-- The time of a timer comes. -/
lemma Ok.fire (h : r.Ok Over) (hts : r.timers.fire n = some ts) :
    ({ r with timers := ts } : Resumes).Ok Over := by
  have hlive (m : ℕ) (id : String) (hm : ({ r with timers := ts } : Resumes).Live m id) :
    r.Live m id := by
    obtain ⟨st, hst, hne⟩ := hm
    cases st with
    | armed => exact ⟨.armed, Timers.armed_fire hts hst, nofun⟩
    | due => exact (Timers.due_fire hts hst).elim (fun hd => ⟨.due, hd, nofun⟩) fun ha =>
      ⟨.armed, ha, nofun⟩
    | spent => exact absurd rfl hne
  refine ⟨h.timely, fun m id hm => h.armed m id (Timers.armed_fire hts hm), fun m id hm => ?_,
    fun m k id hm hk => h.single m k id (hlive m id hm) (hlive k id hk),
    fun m id hm =>
      ⟨Timers.length_fire hts ▸ (h.done m id hm).1, fun hl => (h.done m id hm).2 (hlive m id hl)⟩⟩
  refine (h.latest m id (hlive m id hm)).imp_right fun hw => ⟨hm.waits fun ha => ?_, hw.2⟩
  have := hw.1.symm.trans (Timers.armed_fire hts ha)
  cases this

/-- A callback gets the lock. -/
lemma Ok.call (h : r.Ok Over) (hcall : r.call n = some (id, r')) : r'.Ok Over := by
  have hdue : r.Waits n id := due_of_call hcall
  obtain ⟨ts, hts, rfl⟩ := call_eq_some hcall
  have hold {m : ℕ} {id' : String} {st : TimerState} (hne : st ≠ .spent)
      (hm : ts[m]? = some ⟨id', st⟩) :
      r.timers[m]? = some ⟨id', st⟩ := by
    cases st with
    | armed => exact Timers.armed_call hts hm
    | due => exact Timers.due_call hts hm
    | spent => exact absurd rfl hne
  refine h.fewer (Timers.length_call hts) (fun m id' st hne hm => hold hne hm) fun m id' hm => ?_
  have ha := hold (by nofun) hm
  have hid : id' ≠ id := by
    rintro rfl
    obtain rfl := h.single m n id' ⟨.armed, ha, nofun⟩ hdue.live
    have := hdue.symm.trans ha
    cases this
  rw [update_of_ne hid]
  exact h.armed m id' ha

/-- The timer whose callback got the lock is live no more. -/
lemma not_live_call (h : r.Ok Over) (hcall : r.call n = some (id, r')) (m : ℕ) :
    ¬ r'.Live m id := by
  have hdue : r.Waits n id := due_of_call hcall
  obtain ⟨ts, hts, rfl⟩ := call_eq_some hcall
  rintro ⟨st, hst, hne⟩
  obtain ⟨-, rfl⟩ := Timers.call_eq_some hts
  have hm : (r.timers.set n ⟨id, .spent⟩)[m]? = some ⟨id, st⟩ := hst
  rw [getElem?_set] at hm
  split at hm
  · split at hm
    · cases hm
      exact hne rfl
    · cases hm
  · rename_i hnm
    exact hnm (h.single n m id hdue.live ⟨st, hm, hne⟩)

/-- The callback of a timer of an instance that is not over enqueues a resume job. -/
lemma Ok.resume (h : r.Ok Over) (hid : ¬ Over id) (hcall : r.call n = some (id, r')) :
    (r'.note (.resumed id n)).Ok Over := by
  have hdue : r.Waits n id := due_of_call hcall
  have hnot := not_live_call h hcall
  refine (h.call hcall).note (fun m hm => absurd hm (hnot m)) ?_
  rintro id' n' ⟨⟩
  obtain ⟨ts, hts, rfl⟩ := call_eq_some hcall
  refine ⟨(h.latest n id hdue.live).resolve_right fun hw => hid hw.2, fun hmem =>
    (h.done n id hmem).2 hdue.live, ?_, hnot n⟩
  rw [Timers.length_call hts]
  exact (List.getElem?_eq_some_iff.1 hdue).1

lemma Ok.close (h : r.Ok Over) : r.close.Ok Over := by
  have hold {m : ℕ} {id : String} {st : TimerState} (hne : st ≠ .spent)
      (hm : r.close.timers[m]? = some ⟨id, st⟩) :
      r.timers[m]? = some ⟨id, st⟩ ∧ st ≠ .armed := by
    have hm' : (r.timers.mapIdx _)[m]? = _ := hm
    rw [getElem?_mapIdx] at hm'
    obtain ⟨tm, htm, heq⟩ := Option.map_eq_some_iff.1 hm'
    split at heq
    · cases heq
      exact absurd rfl hne
    · rename_i hna
      subst heq
      exact ⟨htm, fun ha => hna ⟨h.armed m id (ha ▸ htm), ha⟩⟩
  exact h.fewer length_mapIdx (fun m id st hne hm => (hold hne hm).1) fun m id hm =>
    absurd rfl (hold (by nofun) hm).2

end Resumes

/-! ## Instances that are over -/

namespace Topics

variable {D : Type} {t t' : Topics D} {id id' : String} {r : Instance D}

/-- The record of the instance is finished. -/
def Over (t : Topics D) (id : String) : Prop := ∃ r, t.insts id = some r ∧ r.finished = true

lemma Over.record (h : t.Over id) : (t.recordLocked id).finished := by
  obtain ⟨r, hr, hf⟩ := h
  rw [recordLocked, hr]
  exact hf

/-- A record is written, which is finished if it is that of the instance. -/
lemma Over.update (h : t.Over id) (hinsts : t'.insts = update t.insts id' (some r))
    (hr : id' = id → r.finished) : t'.Over id := by
  by_cases hid : id' = id
  · subst hid
    exact ⟨r, by rw [hinsts, update_self], hr rfl⟩
  · rw [Over, hinsts, update_of_ne (Ne.symm hid)]
    exact h

variable {wire : Wire D} {now : Int} {pace : Pace}

lemma Over.publish {body : EventBody D} (h : t.Over id) :
    (t.publishLocked wire now pace id' body).Over id := by
  refine h.update rfl ?_
  rintro rfl
  rw [Instance.finished_retain]
  exact h.record

variable {retention : Int} {pace' : Pace} {o : Outcome D}

lemma over_finish : (t.finishLocked wire retention now pace pace' id o).Over id := by
  cases hf : (t.recordLocked id).finished with
  | true =>
    rw [finishLocked, if_pos hf]
    cases hid : t.insts id with
    | none =>
      rw [recordLocked, hid] at hf
      cases hf
    | some r =>
      rw [recordLocked, hid] at hf
      exact ⟨r, hid, hf⟩
  | false =>
    rw [finishLocked_eq hf]
    exact ⟨_, update_self .., rfl⟩

lemma Over.finish (h : t.Over id) :
    (t.finishLocked wire retention now pace pace' id' o).Over id := by
  by_cases hid : id' = id
  · subst hid
    exact over_finish
  · cases hf : (t.recordLocked id').finished with
    | true =>
      rw [finishLocked, if_pos hf]
      exact h
    | false =>
      rw [finishLocked_eq hf]
      exact h.update rfl fun heq => absurd heq hid

lemma Over.subscribe {cap : ℕ} (h : t.Over id) : (t.subscribeToInstance cap now id').Over id := by
  rw [subscribeToInstance]
  split
  · rename_i hnone
    refine h.update rfl ?_
    rintro rfl
    obtain ⟨r, hr, -⟩ := h
    rw [hr] at hnone
    cases hnone
  · rename_i r hr
    split
    · exact h
    · rename_i hlive
      refine h.update rfl ?_
      rintro rfl
      have hf := h.record
      rw [recordLocked, hr] at hf
      exact absurd hf hlive

lemma Over.unsubscribe {i : ℕ} (h : t.Over id) : (t.unsubscribe i).Over id := by
  rw [Topics.unsubscribe]
  split
  · exact h
  · split
    · refine h.update rfl ?_
      rintro rfl
      exact h.record
    · exact h

lemma Over.sweep (h : t.Over id) (hkept : (t.sweep now).insts id ≠ none) :
    (t.sweep now).Over id := by
  obtain ⟨r', hr'⟩ := Option.ne_none_iff_exists'.1 hkept
  obtain ⟨r, hr, hf⟩ := h
  have hr₀ := (Option.filter_eq_some_iff.1 hr').1
  rw [hr] at hr₀
  cases hr₀
  exact ⟨r', hr', hf⟩

lemma Over.close (h : t.Over id) : t.close.Over id := by
  obtain ⟨r, hr, hf⟩ := h
  exact ⟨{ r with subs := [] }, Option.map_eq_some_iff.2 ⟨r, hr, rfl⟩, hf⟩

end Topics

/-! ## Runs -/

variable {D : Type} {cfg : Config D} {w w' : World D} {a : Action D}

/-- An instance is reported running, or suspended without a resume time, when no timer of it
is live; it is suspended with a resume time when no callback waits for it; and its record is
not purged while one does. -/
def Prompt (w : World D) : Action D → Prop
  | .report _ id .running => w.closed = false → ∀ n, ¬ w.resumes.Live n id
  | .report _ id (.suspended none) => w.closed = false → ∀ n, ¬ w.resumes.Live n id
  | .report _ id (.suspended (some _)) => w.closed = false → ∀ n, ¬ w.resumes.Waits n id
  | .sweep now _ => ∀ n id, w.resumes.Waits n id → w.topics.Over id →
      (w.topics.sweep now).insts id ≠ none
  | _ => True

/-- An instance that is over stays so, as long as its record is not purged. -/
lemma Step.overtaken (h : Step cfg w a w') (hP : Prompt w a) {n : ℕ} (hn : w.resumes.Waits n id)
    (hid : w.topics.Over id) : w'.topics.Over id := by
  cases h with
  | submit c order id' req job _ hfresh _ =>
    have hne : id' ≠ id := by
      rintro rfl
      obtain ⟨r, hr, -⟩ := hid
      rw [hfresh.1] at hr
      cases hr
    have hsubmit : (w.topics.submit id' req.key req.correlationKey).Over id :=
      hid.update rfl fun heq => absurd heq hne
    exact hsubmit.publish
  | cancelQueued _ _ _ _ _ _ | finished _ _ _ _ => exact hid.finish
  | say _ _ _ _ _ _ | running _ _ _ | suspended _ _ _ _ => exact hid.publish
  | subscribe now id' _ => exact hid.subscribe
  | unsubscribe i => exact hid.unsubscribe
  | sweep now order _ => exact hid.sweep (hP n id hn hid)
  | close _ => exact hid.close
  | _ => exact hid

/-- Every prompt action keeps the log timely. -/
lemma Step.resumes_ok (h : Step cfg w a w') (hP : Prompt w a) (hw : w.resumes.Ok w.topics.Over) :
    w'.resumes.Ok w'.topics.Over := by
  have hmono : w.resumes.Ok w'.topics.Over := hw.mono fun n id hn hid => h.overtaken hP hn hid
  cases h with
  | cancelQueued c order req jobs _ _ | finished c id o _ => exact hmono.finish Topics.over_finish
  | running c id hopen => exact hmono.note (fun n hn => absurd hn (hP hopen n)) nofun
  | suspended c id resumeAt hopen =>
    cases resumeAt with
    | none => exact hmono.note (fun n hn => absurd hn (hP hopen n)) nofun
    | some resumeAt => exact hmono.suspend resumeAt (hP hopen)
  | resumeDue n ts hts => exact hmono.fire hts
  | resumeIdle n id resumes hcall => exact hmono.call hcall
  | resume n id resumes rec job _ hcall hrec hlive _ =>
    refine hmono.resume (fun ⟨r, hr, hf⟩ => ?_) hcall
    rw [hrec] at hr
    cases hr
    rw [hlive] at hf
    cases hf
  | close _ => exact hmono.close
  | _ => exact hmono

/-- A resume job is enqueued on behalf of the latest suspension, and once, if no timer is
left behind by a report that does not stop it. -/
theorem resumes_timely (cfg : Config D) (as : List (Action D))
    (h : (machine cfg).Along Prompt .new as) :
    (machine cfg).Always (fun w => Timely w.resumes.log) .new as := by
  have hok : (machine cfg).Always (fun w => w.resumes.Ok w.topics.Over) .new as :=
    h.always (fun w a w' hP hw hstep => (Step.of_step hstep).resumes_ok hP hw) Resumes.ok_empty
  exact hok.imp fun w hw => hw.timely

/-- The worker suspends its instance until a time and then runs it before that time comes. -/
def sampleWoken : List (Action Unit) :=
  sampleTake ++ [.report (sampleCall 2) "i" (.suspended (some 9)),
    .report (sampleCall 3) "i" .running, .resumeDue 0,
    .resume 0]

/-- The timer is not stopped, so a running instance is resumed. -/
theorem resumed_running : ∃ w, (machine sampleConfig).exec .new sampleWoken = some w ∧
    ¬ Timely w.resumes.log := by
  obtain ⟨w, h, hlog⟩ : ∃ w, (machine sampleConfig).exec .new sampleWoken = some w ∧
      w.resumes.log = [.suspended "i" (some 0), .running "i", .resumed "i" 0] := ⟨_, rfl, rfl⟩
  refine ⟨w, h, fun ht => ?_⟩
  rw [hlog] at ht
  have hlast := ht.latest 2 "i" 0 rfl
  exact absurd hlast (by decide)

/-- The time comes, and the instance is resumed. -/
def sampleAwaited : List (Action Unit) :=
  sampleTake ++ [.report (sampleCall 2) "i" (.suspended (some 9)), .resumeDue 0, .resume 0]

/-- A test for a prompt action: no timer is live at any report. -/
def spent (w : World D) : Action D → Bool
  | .report _ _ _ => w.resumes.timers.all fun tm => tm.state = .spent
  | .sweep _ _ => false
  | _ => true

lemma prompt_of_spent (h : spent w a) : Prompt w a := by
  have hlive (hall : (w.resumes.timers.all fun tm => tm.state = .spent) = true)
      (n : ℕ) (id : String) :
      ¬ w.resumes.Live n id := by
    rintro ⟨st, hst, hne⟩
    have := all_eq_true.1 hall _ (mem_of_getElem? hst)
    exact hne (of_decide_eq_true this)
  cases a with
  | report c id what =>
    cases what with
    | running => exact fun _ n => hlive h n id
    | suspended resumeAt =>
      cases resumeAt with
      | none => exact fun _ n => hlive h n id
      | some resumeAt => exact fun _ n hn => hlive h n id hn.live
    | _ => trivial
  | sweep now order => cases h
  | _ => trivial

/-- The timer is awaited, and the instance is resumed. -/
theorem resumes_timely_awaited : (machine sampleConfig).Along Prompt .new sampleAwaited ∧
    (machine sampleConfig).Always (fun w => Timely w.resumes.log) .new sampleAwaited ∧
    ∃ w, (machine sampleConfig).exec .new sampleAwaited = some w ∧
    Mark.resumed "i" 0 ∈ w.resumes.log := by
  have hprompt : (machine sampleConfig).Along Prompt .new sampleAwaited :=
    Machine.along_of_checks (fun _ _ => prompt_of_spent) rfl
  refine ⟨hprompt, resumes_timely sampleConfig sampleAwaited hprompt, ?_⟩
  exact ⟨_, rfl, mem_of_getElem? (i := 1) rfl⟩

end Broker

end Blkit
