import Blkit.Redis.Failing
import Blkit.Redis.Instances
import Blkit.Redis.Timers

/-!
# Reports that are repeated after an error

`finish` marks the instance finished and then appends its last events.  When it fails in
between, the mark is there, and the report that is made again returns at once: the events are
not appended any more.  They are if and only if the failure was a harmless one.
-/

namespace Blkit

namespace Redis

open Broker Prog List Server

/-! ## How far a call has come with ending an instance -/

inductive Stage where
  /-- has not tried to set the flag -/
  | ends
  /-- has set it -/
  | armed
  /-- has appended the lifecycle event, and one more is to come -/
  | owes
  | told
  /-- has found the flag set -/
  | late
  /-- has met an error -/
  | stuck
deriving DecidableEq, Repr

variable {D B : Type}

/-- The events that end an instance. -/
def lastEvents (o : Outcome D) : List (EventBody D) := .lifecycle o.phase :: o.extra.toList

variable (cfg : Config D B) (id : String) (o : Outcome D)

/-- The envelope is one of the event. -/
def Wraps (body : EventBody D) (kind : EventKind) (phase : Option ProcessStatus) (env : B) : Prop :=
  kind = eventKindName body ∧ phase = phaseField body ∧ ∃ corr now,
    cfg.codec.encodeEvent ⟨id, corr, body, now⟩ = .ok env

/-- The stage after an attempt to set the flag. -/
def Stage.afterFlag : Option Bool → Stage
  | some true => .armed
  | some false => .late
  | none => .stuck

/-- The stage after the terminal lifecycle event. -/
def Stage.afterEnd (heard : Bool) : Stage :=
  if heard then if o.extra.isSome then .owes else .told else .stuck

/-- The protocol of `finish`.  That the clock gives no answer does not happen. -/
def finishing : Protocol Stage (Cmd B) Cmd.Reply := fun q c r q' =>
  match c, r with
  | .hsetnxFinished inst, r => inst = id ∧ q = .ends ∧ q' = .afterFlag r
  | .xaddInst inst kind phase env, r => inst = id ∧
    (q = .armed ∧ Wraps cfg id (.lifecycle o.phase) kind phase env ∧ q' = .afterEnd o r.isSome ∨
      q = .owes ∧ (∃ body, o.extra = some body ∧ Wraps cfg id body kind phase env) ∧
        q' = if r.isSome then .told else .stuck)
  | .hsetMeta _ _ _, _ | .expireMeta _, _ | .expireInst _, _ => False
  | .now, none => True
  | _, _ => q' = q

/-- All events of the outcome can be put into envelopes. -/
def Encodes : Prop :=
  ∀ body ∈ lastEvents o, ∀ corr now, ∃ env, cfg.codec.encodeEvent ⟨id, corr, body, now⟩ = .ok env

/-- What a call that returns has done. -/
def Ended (q : Stage) (a : Except Failure (Answer D)) : Prop :=
  (∀ ans, a = .ok ans → q = .told ∨ q = .late) ∧ ∀ e, a = .error e → q = .ends ∨ q = .stuck

variable {cfg id o}

lemma ended_error {q : Stage} {e : Failure} (h : q = .ends ∨ q = .stuck) :
    Ended q (.error e : Except Failure (Answer D)) :=
  ⟨nofun, fun _ _ => h⟩

variable {ans : Answer D}

lemma ended_ok {q : Stage} (h : q = .told ∨ q = .late) : Ended q (.ok ans) := ⟨fun _ _ => h, nofun⟩

/-- A call does not return in the middle. -/
lemma Ended.not_midway {q : Stage} {a : Except Failure (Answer D)} (h : Ended q a) :
    q ≠ .armed ∧ q ≠ .owes := by
  cases a with
  | ok ans => rcases h.1 ans rfl with rfl | rfl <;> exact ⟨nofun, nofun⟩
  | error e => rcases h.2 e rfl with rfl | rfl <;> exact ⟨nofun, nofun⟩

lemma about_finishing : About (finishing cfg id o) [.metadata, .flag, .event, .expiry] := by
  intro c hc q r
  cases c with
  | hsetMeta _ _ _ | hsetnxFinished _ | xaddInst _ _ _ _ | expireMeta _ | expireInst _ =>
    exact absurd (by simp [Cmd.area]) hc
  | now => cases r <;> trivial
  | _ => rfl

variable {body : EventBody D}

/-- An event that can be put into an envelope is appended, or there is an error. -/
lemma obeys_append {q : Stage} {post : Stage → Except Failure Unit → Prop}
    (henc : ∀ corr now, ∃ env, cfg.codec.encodeEvent ⟨id, corr, body, now⟩ = .ok env)
    (hadd : ∀ env (r : Option Unit), Wraps cfg id body (eventKindName body) (phaseField body) env →
      ∃ q', finishing cfg id o q (.xaddInst id (eventKindName body) (phaseField body) env) r q' ∧
        post q' (r.elim (.error .server) .ok))
    (herror : ∀ e, post .stuck (.error e)) :
    Obeys (finishing cfg id o) post q (publishInstanceEvent cfg id body).run := by
  intro corr
  refine ⟨q, rfl, fun now => ?_⟩
  cases now with
  | none => exact ⟨.stuck, trivial, herror _⟩
  | some now =>
    refine ⟨q, rfl, ?_⟩
    obtain ⟨env, hdata⟩ := henc corr.join now
    show Obeys _ post q (orThrow .encode (cfg.codec.encodeEvent ⟨id, corr.join, body, now⟩) >>=
      _ : Act B Unit).run
    rw [hdata]
    exact fun r => hadd env r ⟨rfl, rfl, corr.join, now, hdata⟩

lemma obeys_extra (henc : Encodes cfg id o) (hbody : o.extra = some body) :
    Obeys (finishing cfg id o) (fun q a => q = if a.isOk then .told else .stuck) .owes
      (publishInstanceEvent cfg id body).run := by
  have hmem : body ∈ lastEvents o := by
    rw [lastEvents, hbody]
    exact .tail _ (.head _)
  refine obeys_append (henc body hmem)
    (fun env r hwraps => ⟨if r.isSome then .told else .stuck, ⟨rfl, .inr ?_⟩, ?_⟩) fun _ => rfl
  · exact ⟨rfl, ⟨body, hbody, hwraps⟩, rfl⟩
  · cases r <;> rfl

/-- What is left to do when all events are there. -/
lemma obeys_expire : Obeys (finishing cfg id o) Ended .told (do
    let _ ← attempt (.pexpireMeta id)
    let _ ← attempt (.pexpireInst id)
    return (.nothing : Answer D) : Act B (Answer D)).run :=
  fun _ => ⟨.told, rfl, fun _ => ⟨.told, rfl, ended_ok (.inl rfl)⟩⟩

lemma obeys_conclude_told (henc : Encodes cfg id o) :
    Obeys (finishing cfg id o) Ended .armed (conclude cfg id o).run := by
  refine obeys_try.2 (obeys_append (henc _ (.head _)) (fun env r hwraps => ?_) fun _ =>
    ended_error (.inr rfl))
  refine ⟨.afterEnd o r.isSome, ⟨rfl, .inl ⟨rfl, hwraps, rfl⟩⟩, ?_⟩
  cases r with
  | none => exact ended_error (.inr rfl)
  | some u =>
    cases hextra : o.extra with
    | none =>
      rw [Stage.afterEnd, hextra]
      exact obeys_expire
    | some body =>
      rw [Stage.afterEnd, hextra]
      refine obeys_try.2 ((obeys_extra henc hextra).mono ?_)
      rintro q (e | u) rfl
      · exact ended_error (.inr rfl)
      · exact obeys_expire

variable {b : ℕ}

/-- A report that finishes an instance. -/
lemma obeys_report_finished (henc : Encodes cfg id o) :
    Obeys (finishing cfg id o) Ended .ends (report cfg b id (.finished o)).run := by
  refine (within_check.unnoticed about_finishing rfl).obeys (fun _ => ?_) fun _ =>
    ended_error (.inl rfl)
  refine (within_settle.unnoticed about_finishing rfl).obeys (fun _ => ?_) fun _ =>
    ended_error (.inl rfl)
  refine Still.obeys (still_attempt fun _ _ => rfl) (fun _ => ?_) fun _ => ended_error (.inl rfl)
  refine obeys_try.2 (obeys_must.2 fun r => ⟨.afterFlag r, ⟨rfl, rfl, rfl⟩, ?_⟩)
  match r with
  | none => exact ended_error (.inr rfl)
  | some false => exact ended_ok (.inr rfl)
  | some true => exact obeys_conclude_told henc

/-! ## What has been appended -/

variable (cfg id o) in
/-- The last events of the instance were appended, and are on its stream. -/
def Concluded (s s' : Server B) : Prop :=
  ∃ new, s'.history id = s.history id ++ new ∧ new <:+ s'.events id ∧
    List.Forall₂ (fun body e => Wraps cfg id body e.kind e.phase e.env) (lastEvents o) new

variable (id o) in
/-- A command that must not fail so. -/
def Harmful (x : Cmd B × Fate) : Prop :=
  match x.1 with
  | .hsetnxFinished inst => inst = id ∧ x.2 = .lost
  | .xaddInst inst kind _ _ =>
    inst = id ∧ (x.2 = .failed ∨ x.2 = .lost ∧ kind = .lifecycle ∧ o.extra ≠ none)
  | _ => False

variable {s s₁ s' : Server B} {l : List (Cmd B × Fate)} {x : Cmd B × Fate}

lemma Harmful.not_done (h : Harmful id o x) : x.2 ≠ .done := by
  obtain ⟨c, f⟩ := x
  rintro rfl
  cases c with
  | hsetnxFinished inst => exact absurd h.2 nofun
  | xaddInst inst kind phase env => exact h.2.elim nofun fun h => absurd h.1 nofun
  | _ => exact h

/-- Not all has been appended. -/
lemma not_concluded {part : List (EventEntry B)} (h : s'.history id = s.history id ++ part)
    (hlen : part.length < (lastEvents o).length) : ¬ Concluded cfg id o s s' := by
  rintro ⟨new, hnew, -, hall⟩
  have heq : part = new := append_cancel_left (h.symm.trans hnew)
  rw [hall.length_eq, heq] at hlen
  exact absurd hlen (Nat.lt_irrefl _)

lemma Concluded.same (h : Same id s₁ s') : Concluded cfg id o s s' ↔ Concluded cfg id o s s₁ := by
  rw [Concluded, Concluded, h.history, h.events]

/-! ## The first attempts, up to the one that sets the flag -/

variable (id o) in
/-- No command has failed in a way that does harm. -/
def Harmless (l : List (Cmd B × Fate)) : Prop := ∀ x ∈ l, ¬ Harmful id o x

lemma harmless_concat : Harmless id o (l ++ [x]) ↔ Harmless id o l ∧ ¬ Harmful id o x := by
  simp only [Harmless, mem_append, mem_singleton, or_imp, forall_and, forall_eq]

variable (cfg id o) in
/-- What has been done at each stage, from a state in which the instance is not finished. -/
inductive Progress (s₀ : Server B) : Stage → Server B → List (Cmd B × Fate) → Prop
  | ends {s : Server B} {l : List (Cmd B × Fate)} (hflag : s.flag id ≠ some true)
      (hhist : s.history id = s₀.history id)
      (hl : Harmless id o l) : Progress s₀ .ends s l
  | armed {s : Server B} {l : List (Cmd B × Fate)} (hflag : s.flag id = some true)
      (hhist : s.history id = s₀.history id)
      (hl : Harmless id o l) : Progress s₀ .armed s l
  | owes {s : Server B} {l : List (Cmd B × Fate)} {e : EventEntry B} (hflag : s.flag id = some true)
      (hhist : s.history id = s₀.history id ++ [e])
        (he : Wraps cfg id (.lifecycle o.phase) e.kind e.phase e.env)
      (hlast : [e] <:+ s.events id) (hl : Harmless id o l) : Progress s₀ .owes s l
  | told {s : Server B} {l : List (Cmd B × Fate)} (hflag : s.flag id = some true)
      (hdone : Concluded cfg id o s₀ s)
      (hl : Harmless id o l) : Progress s₀ .told s l
  | before {s : Server B} {l : List (Cmd B × Fate)} (hflag : s.flag id ≠ some true)
      (hhist : s.history id = s₀.history id)
      (hl : Harmless id o l) : Progress s₀ .stuck s l
  | after {s : Server B} {l : List (Cmd B × Fate)} (hflag : s.flag id = some true)
      (hdone : Concluded cfg id o s₀ s ↔ Harmless id o l) (hfail : ∃ x ∈ l, x.2 ≠ .done) :
        Progress s₀ .stuck s l

variable {q q' : Stage} {s₀ : Server B}

/-- Commands that leave the instance alone. -/
lemma Progress.same (h : Progress cfg id o s₀ q s l) (hs : Same id s s') (hx : ¬ Harmful id o x) :
    Progress cfg id o s₀ q s' (l ++ [x]) := by
  have hl (hl : Harmless id o l) : Harmless id o (l ++ [x]) := harmless_concat.2 ⟨hl, hx⟩
  cases h with
  | ends hflag hhist hclean => exact .ends (hs.flag ▸ hflag) (hs.history.trans hhist) (hl hclean)
  | armed hflag hhist hclean =>
    exact .armed (hs.flag.trans hflag) (hs.history.trans hhist) (hl hclean)
  | owes hflag hhist he hlast hclean =>
    exact .owes (hs.flag.trans hflag) (hs.history.trans hhist) he (hs.events ▸ hlast) (hl hclean)
  | told hflag hdone hclean =>
    exact .told (hs.flag.trans hflag) ((Concluded.same hs).2 hdone) (hl hclean)
  | before hflag hhist hclean =>
    exact .before (hs.flag ▸ hflag) (hs.history.trans hhist) (hl hclean)
  | after hflag hdone hfail =>
    obtain ⟨y, hy, hne⟩ := hfail
    refine .after (hs.flag.trans hflag) ?_ ⟨y, mem_append_left _ hy, hne⟩
    rw [Concluded.same hs, hdone, harmless_concat, and_iff_left hx]

/-- The flag is set, and the call does not know. -/
lemma Progress.flag_lost (h : Progress cfg id o s₀ .ends s l) :
    Progress cfg id o s₀ .stuck (s.hsetnxFinished id).2 (l ++ [(.hsetnxFinished id, .lost)]) := by
  cases h with
  | ends hflag hhist hclean =>
    have hpart : (s.hsetnxFinished id).2.history id = s₀.history id ++ [] := by
      rw [history_hsetnxFinished, hhist, append_nil]
    refine .after flag_hsetnxFinished (iff_of_false (not_concluded hpart (Nat.zero_lt_succ _)) ?_)
      ⟨_, mem_append_right _ (.head _), nofun⟩
    exact fun hall => (harmless_concat.1 hall).2 ⟨rfl, rfl⟩

/-- An event cannot be appended. -/
lemma Progress.append_failed {kind : EventKind} {phase : Option ProcessStatus} {env : B}
    (h : Progress cfg id o s₀ q s l) (hq : q = .armed ∨ q = .owes ∧ o.extra ≠ none) :
    Progress cfg id o s₀ .stuck s (l ++ [(.xaddInst id kind phase env, .failed)]) := by
  have hharm : ¬ Harmless id o (l ++ [(.xaddInst id kind phase env, .failed)]) :=
    fun hall => (harmless_concat.1 hall).2 ⟨rfl, .inl rfl⟩
  have hfail : ∃ x ∈ l ++ [((.xaddInst id kind phase env : Cmd B), Fate.failed)], x.2 ≠ .done :=
    ⟨_, mem_append_right _ (.head _), nofun⟩
  cases h with
  | armed hflag hhist hclean =>
    have hpart : s.history id = s₀.history id ++ [] := by rw [hhist, append_nil]
    exact .after hflag (iff_of_false (not_concluded hpart (Nat.zero_lt_succ _)) hharm) hfail
  | owes hflag hhist he hlast hclean =>
    obtain ⟨-, hextra⟩ := hq.resolve_left nofun
    refine .after hflag (iff_of_false (not_concluded hhist ?_) hharm) hfail
    cases hbody : o.extra with
    | none => exact absurd hbody hextra
    | some body => simp [lastEvents, hbody]
  | _ => exact hq.elim nofun fun h => absurd h.1 nofun

section Append

variable {kind : EventKind} {phase : Option ProcessStatus} {env : B} {ch : Choice} {heard : Bool}

/-- The last event is appended: the call is told, or stuck in a way that does no harm. -/
lemma Progress.append_last (hflag : s.flag id = some true) (hdone : Concluded cfg id o s₀ s)
    (hl : Harmless id o l)
    (hx : x.2 = .lost → ¬ Harmful id o x) (hheard : x.2 = if heard then .done else .lost) :
    Progress cfg id o s₀ (if heard then .told else .stuck) s (l ++ [x]) := by
  cases heard with
  | true => exact .told hflag hdone (harmless_concat.2 ⟨hl, fun h => h.not_done hheard⟩)
  | false =>
    refine .after hflag (iff_of_true hdone (harmless_concat.2 ⟨hl, hx hheard⟩))
      ⟨x, mem_append_right _ (.head _), ?_⟩
    rw [hheard]
    nofun

/-- The terminal lifecycle event is appended. -/
lemma Progress.append_end (h : Progress cfg id o s₀ .armed s l)
    (hwraps : Wraps cfg id (.lifecycle o.phase) kind phase env)
    (hrun : s.run (.xaddInst id kind phase env) ch = some (s', ())) : Progress cfg id
      o s₀ (.afterEnd o heard) s'
      (l ++ [(.xaddInst id kind phase env, if heard then .done else .lost)]) := by
  obtain ⟨htrim, hrun⟩ := Option.ite_none_right_eq_some.1 hrun
  cases hrun
  cases h with
  | armed hflag hhist hclean =>
    have hhist' : (s.xaddInst id kind phase env ch.trim).history id =
        s₀.history id ++ [⟨s.lastID + 1, kind, phase, env⟩] := by
      rw [history_xaddInst, hhist]
    have hlast : [⟨s.lastID + 1, kind, phase, env⟩] <:+
        (s.xaddInst id kind phase env ch.trim).events id :=
      suffix_events_xaddInst htrim nil_suffix (show 0 < 256 by decide)
    rw [Stage.afterEnd]
    cases hextra : o.extra with
    | none =>
      -- there is no other event
      refine .append_last hflag ⟨_, hhist', hlast, ?_⟩ hclean ?_ rfl
      · rw [lastEvents, hextra]
        exact .cons hwraps .nil
      · rintro - ⟨-, hharm⟩
        cases heard <;> simp [hextra] at hharm
    | some body =>
      cases heard with
      | true =>
        exact .owes hflag hhist' hwraps hlast
          (harmless_concat.2 ⟨hclean, fun h => h.not_done rfl⟩)
      | false =>
        refine .after hflag (iff_of_false (not_concluded hhist' ?_) fun hall => ?_)
          ⟨_, mem_append_right _ (.head _), nofun⟩
        · rw [lastEvents, hextra]
          exact Nat.lt_add_one 1
        · exact (harmless_concat.1 hall).2 ⟨rfl, .inr ⟨rfl, hwraps.1, by rw [hextra]; nofun⟩⟩

/-- The other event is appended. -/
lemma Progress.append_extra {body : EventBody D} (h : Progress cfg id o s₀ .owes s l)
    (hbody : o.extra = some body)
    (hwraps : Wraps cfg id body kind phase env)
    (hrun : s.run (.xaddInst id kind phase env) ch = some (s', ())) :
    Progress cfg id o s₀ (if heard then .told else .stuck) s'
      (l ++ [(.xaddInst id kind phase env, if heard then .done else .lost)]) := by
  obtain ⟨htrim, hrun⟩ := Option.ite_none_right_eq_some.1 hrun
  cases hrun
  cases h with
  | @owes _ _ e hflag hhist he hlast hclean =>
    refine .append_last hflag ⟨[e, ⟨s.lastID + 1, kind, phase, env⟩], ?_, ?_, ?_⟩ hclean ?_ rfl
    · rw [history_xaddInst, hhist, append_assoc]
      rfl
    · exact suffix_events_xaddInst htrim hlast (show 1 < 256 by decide)
    · rw [lastEvents, hbody]
      exact .cons he (.cons hwraps .nil)
    · -- it is no lifecycle event
      rintro hlost ⟨-, hharm⟩
      rcases hharm with hfailed | ⟨-, hkind, -⟩
      · rw [hlost] at hfailed
        cases hfailed
      · rw [hwraps.1] at hkind
        cases o <;> cases hbody <;> cases hkind

end Append

variable {c : Cmd B}

/-- A command that does not concern the instance, or fails to. -/
lemma Progress.other {f : Fate} (h : Progress cfg id o s₀ q s l) (hc : ¬ Touches id c)
    (hs : Same id s s') : Progress cfg id o s₀ q s' (l ++ [(c, f)]) := by
  refine h.same hs fun hharm => hc ?_
  cases c with
  | hsetnxFinished _ | xaddInst _ _ _ _ => exact hharm.1
  | _ => exact hharm.elim

variable (cfg id o) in
/-- What the protocol allows. -/
inductive Finishing : Stage → (c : Cmd B) → Option c.Reply → Stage → Prop
  | other {q : Stage} {c : Cmd B} {r : Option c.Reply} (hc : ¬ Touches id c) : Finishing q c r q
  | flag {r : Option Bool} : Finishing .ends (.hsetnxFinished id) r (.afterFlag r)
  | last {kind : EventKind} {phase : Option ProcessStatus} {env : B} {r : Option Unit}
      (hwraps : Wraps cfg id (.lifecycle o.phase) kind phase env) :
      Finishing .armed (.xaddInst id kind phase env) r (.afterEnd o r.isSome)
  | extra {kind : EventKind} {phase : Option ProcessStatus} {env : B} {r : Option Unit}
      {body : EventBody D}
      (hbody : o.extra = some body) (hwraps : Wraps cfg id body kind phase env) :
      Finishing .owes (.xaddInst id kind phase env) r (if r.isSome then .told else .stuck)

variable {r : Option c.Reply}

lemma finishing_cases (h : finishing cfg id o q c r q')
    (hr : c.remote ∨ r ≠ none) : Finishing cfg id o q c r q' := by
  cases c with
  | hsetMeta _ _ _ | expireMeta _ | expireInst _ => exact h.elim
  | hsetnxFinished inst =>
    obtain ⟨rfl, rfl, rfl⟩ := h
    exact .flag
  | xaddInst inst kind phase env =>
    obtain ⟨rfl, ⟨rfl, hwraps, rfl⟩ | ⟨rfl, ⟨body, hbody, hwraps⟩, rfl⟩⟩ := h
    · exact .last hwraps
    · exact .extra hbody hwraps
  | now =>
    cases r with
    | none => exact hr.elim nofun fun h => absurd rfl h
    | some now =>
      obtain rfl : q' = q := h
      exact .other nofun
  | _ =>
    obtain rfl : q' = q := h
    exact .other nofun

lemma upholds_progress : Service.Upholds (service B) (finishing cfg id o)
    (Progress cfg id o s₀) := by
  refine ⟨fun q s l c ch s' r q' hrun hN h => ?_, fun q s l c ch s' r q' hc hrun hN h => ?_,
    fun q s l c q' hc hN h => ?_⟩
  · cases finishing_cases hN (.inr nofun) with
    | other htouch => exact h.other htouch (same_run htouch hrun)
    | flag =>
      cases hrun
      cases h with
      | ends hflag hhist hclean =>
        rw [hsetnxFinished_of_not_flag hflag]
        refine .armed flag_hsetnxFinished ?_ (harmless_concat.2 ⟨hclean, fun h => h.not_done rfl⟩)
        rw [history_hsetnxFinished, hhist]
    | last hwraps => exact h.append_end hwraps hrun
    | extra hbody hwraps => exact h.append_extra hbody hwraps hrun
  · cases finishing_cases hN (.inl hc) with
    | other htouch => exact h.other htouch (same_run htouch hrun)
    | flag =>
      cases hrun
      exact h.flag_lost
    | last hwraps => exact h.append_end hwraps hrun
    | extra hbody hwraps => exact h.append_extra hbody hwraps hrun
  · cases finishing_cases hN (.inl hc) with
    | other htouch => exact h.other htouch .refl
    | flag =>
      cases h with
      | ends hflag hhist hclean =>
        exact .before hflag hhist (harmless_concat.2 ⟨hclean, fun h => nomatch h.2⟩)
    | last hwraps => exact h.append_failed (.inl rfl)
    | extra hbody hwraps => exact h.append_failed (.inr ⟨rfl, by rw [hbody]; nofun⟩)

/-! ## Attempts after the flag is set -/

variable (id) in
/-- As long as no command fails, nothing happens any more. -/
def Over (s₀ : Server B) (q : Stage) (s : Server B) (l : List (Cmd B × Fate)) : Prop :=
  (∀ x ∈ l, x.2 = .done) → s.flag id = some true ∧ Same id s₀ s ∧ (q = .ends ∨ q = .late)

lemma upholds_over : Service.Upholds (service B) (finishing cfg id o) (Over id s₀) := by
  refine ⟨fun q s l c ch s' r q' hrun hN h hall => ?_,
    fun q s l c ch s' r q' hc hrun hN h hall => ?_,
    fun q s l c q' hc hN h hall => ?_⟩
  · obtain ⟨hflag, hsame, hq⟩ := h fun x hx => hall x (mem_append_left _ hx)
    cases finishing_cases hN (.inr nofun) with
    | other htouch =>
      have hs := same_run htouch hrun
      exact ⟨hs.flag.trans hflag, hsame.trans hs, hq⟩
    | flag =>
      cases hrun
      rw [hsetnxFinished_of_flag hflag]
      exact ⟨hflag, hsame, .inr rfl⟩
    | last hwraps | extra hbody hwraps => exact hq.elim nofun nofun
  all_goals exact absurd (hall _ (mem_append_right _ (.head _))) nofun

/-- The flag is a mark that is set before the events are appended. -/
lemma marks_finished (henc : Encodes cfg id o) :
    Service.Marks (service B) (report cfg b id (.finished o)).run (fun s => s.flag id = some true)
      (fun s _ s' => Concluded cfg id o s s') (Harmful id o) where
  failed _ hharm := hharm.not_done
  first s log s' a hflag h := by
    have hnone : Harmless id o ([] : List (Cmd B × Fate)) := fun _ hx => absurd hx not_mem_nil
    obtain ⟨q, hended, hprog⟩ :=
      upholds_progress.runs (obeys_report_finished henc) (.ends hflag rfl hnone) h
    -- an attempt that has not set the flag leaves all as it was
    have hopen (hq : q = .ends ∨ q = .stuck) (hflag' : s'.flag id ≠ some true)
        (hhist : s'.history id = s.history id)
        (hclean : Harmless id o log) : ¬ s'.flag id = some true ∧ (∀ ans, a ≠ .ok ans) ∧
          (∀ x ∈ log, ¬ Harmful id o x) ∧
          ∀ (_ : List (Cmd B × Fate)) t, Concluded cfg id o s t ↔ Concluded cfg id o s' t := by
      refine ⟨hflag', fun ans hans => ?_, hclean, fun _ t => ?_⟩
      · rcases hended.1 ans hans with rfl | rfl <;> exact hq.elim nofun nofun
      · rw [Concluded, Concluded, hhist]
    have hok (hq : q ≠ .ends ∧ q ≠ .stuck) : ∃ ans, a = .ok ans := by
      cases a with
      | ok ans => exact ⟨ans, rfl⟩
      | error e => exact (hended.2 e rfl).elim (fun h => absurd h hq.1) fun h => absurd h hq.2
    cases hprog with
    | ends hflag' hhist hclean => exact .inl (hopen (.inl rfl) hflag' hhist hclean)
    | before hflag' hhist hclean => exact .inl (hopen (.inr rfl) hflag' hhist hclean)
    | told hflag' hdone hclean =>
      exact .inr ⟨hflag', iff_of_true hdone hclean, .inl (hok ⟨nofun, nofun⟩)⟩
    | after hflag' hdone hfail => exact .inr ⟨hflag', hdone, .inr hfail⟩
    | armed hflag' hhist hclean => exact absurd rfl hended.not_midway.1
    | owes hflag' hhist he hlast hclean => exact absurd rfl hended.not_midway.2
  later s log s' a hflag hall h := by
    obtain ⟨q, -, hend⟩ :=
      upholds_over.runs (obeys_report_finished henc) (fun _ => ⟨hflag, .refl, .inl rfl⟩) (l := []) h
    obtain ⟨hflag', hsame, -⟩ := hend hall
    exact ⟨hflag', fun s₀ _ => Concluded.same hsame⟩

/-! ## Suspensions -/

variable (id) in
/-- The timer of a suspension is set last. -/
def timing (t : Int) : Protocol Bool (Cmd B) Cmd.Reply := fun q c r q' =>
  match c, r with
  | .zadd inst score, r => inst = id ∧ score = t ∧ q' = r.isSome
  | .zrem _, _ | .dueTimers _, _ => False
  | _, _ => q' = q

variable {t : Int}

lemma about_timing : About (timing (B := B) id t) [.timer] := by
  intro c hc q r
  cases c with
  | zadd _ _ | zrem _ | dueTimers _ => exact absurd (.head _) hc
  | _ => rfl

lemma obeys_suspended : Obeys (timing id (msOf t)) (fun q a => ∀ ans, a = .ok ans → q) false
      (report cfg b id (.suspended (some t))).run := by
  refine (within_check.unnoticed about_timing rfl).obeys (fun _ => ?_) fun _ => nofun
  refine (within_publish.unnoticed about_timing rfl).obeys (fun _ => ?_) fun _ => nofun
  refine (within_settle.unnoticed about_timing rfl).obeys (fun _ => ?_) fun _ => nofun
  refine obeys_try.2 (obeys_must.2 fun r => ⟨r.isSome, ⟨rfl, rfl, rfl⟩, ?_⟩)
  cases r with
  | none => exact nofun
  | some u => exact fun _ _ => rfl

lemma timing_cases {q q' : Bool} (h : timing id t q c r q') :
    c = .zadd id t ∧ q' = r.isSome ∨ c.area.fields.contains .timers = false ∧ q' = q := by
  cases c with
  | zadd inst score =>
    obtain ⟨rfl, rfl, rfl⟩ := h
    exact .inl ⟨rfl, rfl⟩
  | zrem _ | dueTimers _ => exact h.elim
  | _ => exact .inr ⟨rfl, h⟩

lemma upholds_timing :
    Service.Upholds (service B) (timing id t) fun q s _ => q → (id, t) ∈ s.timers := by
  refine ⟨fun q s l c ch s' r q' hrun hN h hq => ?_, fun q s l c ch s' r q' hc hrun hN h hq => ?_,
    fun q s l c q' hc hN h hq => ?_⟩
  · rcases timing_cases hN with ⟨rfl, -⟩ | ⟨hc, rfl⟩
    · cases hrun
      exact mem_append_right _ (.head _)
    · rw [show s.Agree s' .timers from agree_run hc hrun]
      exact h hq
  · rcases timing_cases hN with ⟨rfl, rfl⟩ | ⟨hc, rfl⟩
    · cases hq
    · rw [show s.Agree s' .timers from agree_run hc hrun]
      exact h hq
  · rcases timing_cases hN with ⟨rfl, rfl⟩ | ⟨hc, rfl⟩
    · cases hq
    · exact h hq

/-! ## All together -/

/-- Reports that are repeated until they succeed, and timers that are fired until they are
gone.  An instance that ends has its last events, with one failure on the way, if and only if
that was a harmless one.  A suspension has its timer in any case, and the timer leads to a job
if and only if the round that has claimed it is not spoiled. -/
theorem retry_takes_effect_iff (cfg : Config D B) (b : ℕ) (id : String) :
    (∀ (o : Outcome D) (s s' : Server B) logs ans, Encodes cfg id o → s.flag id ≠ some true →
      (service B).Repeats (report cfg b id (.finished o)).run s logs s' ans →
      SingleFailure logs.flatten →
      (Concluded cfg id o s s' ↔ Harmless id o logs.flatten)) ∧
    (∀ t (s s' : Server B) logs ans,
      (service B).Repeats (report cfg b id (.suspended (some t))).run s logs s' ans →
      (id, msOf t) ∈ s'.timers) ∧
    ∀ key t env (s s' : Server B) logs, (s.timers.map Prod.fst).Nodup →
      id ≠ "" → s.Resumable id key →
      cfg.codec.encodeJob ⟨key, .resume id⟩ = .ok env → (id, t) ∈ s.timers →
      (service B).Until (moveTimers cfg b).run (fun s => id ∉ s.timers.map Prod.fst) s logs s' →
      (Resumed id key s s' ↔ ∀ log, logs.getLast? = some log → ¬ Spoiled id log) := by
  refine ⟨fun o s s' logs ans henc hflag h hsingle => ?_, fun t s s' logs ans h => ?_,
    fun key t env s s' logs hnodup hid hs henc ht h => ?_⟩
  · exact (marks_finished henc).done_iff h hflag hsingle
  · induction h with
    | ok h =>
      obtain ⟨q, hq, hend⟩ := upholds_timing.runs obeys_suspended nofun (l := []) h
      exact hend (hq _ rfl)
    | again h hrest ih => exact ih
  · exact resumed_iff h hnodup hid hs henc ht

def sampleReport (what : Report Unit) :
    Prog (Cmd (Envelope Unit)) Cmd.Reply (Except Failure (Answer Unit)) :=
  (report sampleSystem 0 "i" what).run

/-- The flag is set, the terminal event cannot be appended, and the report that is made again
succeeds. -/
theorem retry_loses_outcome : ∃ logs s' ans,
    (service _).Repeats (sampleReport (.finished (.completed ()))) empty logs s' ans ∧
      SingleFailure logs.flatten ∧ ¬ Concluded sampleSystem "i" (.completed ()) empty s' := by
  refine ⟨[_, _], _, .nothing, .again ⟨sampleFates 7 .failed, rfl⟩ (.ok ⟨sampleFates 4 .done, rfl⟩),
    Nat.le_refl 1, ?_⟩
  exact not_concluded (show _ = empty.history "i" ++ [] from rfl) (Nat.zero_lt_succ _)

/-- An instance that is suspended, with a timer that is due. -/
def sampleSuspended : Server (Envelope Unit) :=
  { empty.setMeta "i" ⟨some (encodeKey sampleKey), none, false, false⟩ with timers := [("i", 0)] }

lemma sampleSuspended_due : sampleSuspended.dueTimers 0 =
    (["i"], { sampleSuspended with timers := [] }) := by
  have hlist : sampleSuspended.dueList 0 = [("i", 0)] := by
    simp [dueList, sampleSuspended]
  rw [dueTimers, hlist]
  rfl

/-- The timer is claimed, and its job is added although the reply to that is lost. -/
lemma sampleSuspended_fires : ∃ log s', (service _).Runs (moveTimers sampleSystem 0).run
    sampleSuspended log s' (.ok .nothing) ∧
    log.all (fun x => x.2 = .done || (x.1.area = .queue && x.2 = .lost)) ∧ s'.timers = [] := by
  obtain ⟨log, s', hrest, hlog, hgone⟩ : ∃ log s', (service _).Runs
      (fireTimers sampleSystem 0 ["i"] >>= fun _ => pure (.nothing : Answer Unit)).run
        { sampleSuspended with timers := [] }
      log s' (.ok .nothing) ∧ log.all (fun x => x.2 = .done || (x.1.area = .queue && x.2 = .lost)) ∧
        s'.timers = [] :=
    ⟨_, _, ⟨sampleFates 4 .lost, rfl⟩, rfl, rfl⟩
  have hdue : (service _).run sampleSuspended (.dueTimers 0) Choice.plain =
      some ({ sampleSuspended with timers := [] }, ["i"]) := by
    show some ((sampleSuspended.dueTimers 0).2, (sampleSuspended.dueTimers 0).1) = _
    rw [sampleSuspended_due]
  refine ⟨(.now, .done) :: (.dueTimers 0, .done) :: log, s', ?_, hlog, hgone⟩
  exact Service.Goes.runs (.done Choice.plain sampleSuspended (0 : Int) _ rfl
    (Service.Goes.runs (.done Choice.plain _ ["i"] _ hdue hrest)))

/-- A report that is made although its timer cannot be removed, a suspension, and a timer. -/
theorem retry_takes_effect :
    (∃ logs s' ans, (service _).Repeats (sampleReport (.finished (.completed ())))
      empty logs s' ans ∧
      Concluded sampleSystem "i" (.completed ()) empty s') ∧
    (∃ logs s' ans, (service _).Repeats (sampleReport (.suspended (some 0))) empty logs s' ans ∧
      ("i", 0) ∈ s'.timers) ∧
    ∃ s', Resumed "i" sampleKey sampleSuspended s' := by
  obtain ⟨hfinished, hsuspended, htimer⟩ := retry_takes_effect_iff sampleSystem 0 "i"
  refine ⟨?_, ?_, ?_⟩
  · obtain ⟨log, s', hruns, hlog, hsingle⟩ : ∃ log s',
        (service _).Runs (sampleReport (.finished (.completed ()))) empty log s'
        (.ok .nothing) ∧ log.all (fun x => x.2 = .done || x.1.area = .timer) ∧
          SingleFailure [log].flatten :=
      ⟨_, _, ⟨sampleFates 3 .failed ++ sampleFates 8 .done, rfl⟩, rfl, Nat.le_refl 1⟩
    have hlive : (empty : Server (Envelope Unit)).flag "i" ≠ some true :=
      show (none : Option Bool) ≠ some true from nofun
    refine ⟨[log], s', .nothing, .ok hruns,
      (hfinished _ _ _ _ _ (fun _ _ _ _ => ⟨_, rfl⟩) hlive (.ok hruns) hsingle).2
        fun x hx hharm => ?_⟩
    rw [flatten_cons, flatten_nil, append_nil] at hx
    have hx := all_eq_true.1 hlog x hx
    rw [Bool.or_eq_true, decide_eq_true_eq, decide_eq_true_eq, or_iff_right hharm.not_done] at hx
    obtain ⟨c, f⟩ := x
    cases c with
    | zadd _ _ | zrem _ | dueTimers _ => exact hharm
    | _ => cases hx
  · have hruns : ∃ log s', (service _).Runs (sampleReport (.suspended (some 0)))
        empty log s' (.ok .nothing) :=
      ⟨_, _, sampleFates 6 .done, rfl⟩
    obtain ⟨log, s', hruns⟩ := hruns
    exact ⟨[log], s', .nothing, .ok hruns, hsuspended 0 _ _ _ _ (.ok hruns)⟩
  · obtain ⟨log, s', hruns, hlog, hgone⟩ := sampleSuspended_fires
    have hclaimed : "i" ∉ s'.timers.map Prod.fst := by
      rw [hgone]
      exact not_mem_nil
    have hfine {x : Cmd (Envelope Unit) × Fate} (hx : x ∈ log) : ¬ Spoils x := by
      rintro ⟨hdone, hlost⟩
      have hx := all_eq_true.1 hlog x hx
      rw [Bool.or_eq_true, Bool.and_eq_true, decide_eq_true_eq, decide_eq_true_eq,
        decide_eq_true_eq] at hx
      exact hx.elim hdone hlost
    refine ⟨s', (htimer sampleKey 0 _ sampleSuspended s' [log] (nodup_singleton _) nofun
      ⟨_, rfl, rfl, rfl⟩ rfl (.head _)
      (.last hruns hclaimed)).2 ?_⟩
    rintro l hl (⟨now, hmem⟩ | ⟨x, hx, hspoils⟩)
    · cases hl
      exact hfine hmem ⟨nofun, fun h => nomatch h.1⟩
    · cases hl
      exact hfine (mem_of_mem_firing hx) hspoils

end Redis

end Blkit
