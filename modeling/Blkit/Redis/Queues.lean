import Blkit.Redis.Footprint

/-!
# The streams of jobs

Which commands change the entries of a stream of jobs: a job is added, entries are deleted,
and a queued start job is removed.  Reading and claiming entries is a matter of the group.
A program that removes none leaves the jobs that were there, and behind them those that its
log has (`grown_runs`).
-/

namespace Blkit

namespace Redis

open Broker Prog List

namespace Server

variable {B : Type} {s s' : Server B} {c : Cmd B} {ch : Choice} {stream : String}

/-! ## Entries -/

/-- The entries of a stream of jobs. -/
def queued (s : Server B) (stream : String) : List (JobEntry B) := (s.jobs stream).entries

variable {js : JobStream B} {stream' : String}

lemma queued_setJobs :
    (s.setJobs stream' js).queued stream = if stream = stream' then js.entries
      else s.queued stream := by
  show (Function.update s.jobs stream' js stream).entries = _
  rw [Function.update_apply]
  split <;> rfl

lemma queued_setJobs_of_eq (h : js.entries = s.queued stream') :
    (s.setJobs stream' js).queued stream = s.queued stream := by
  rw [queued_setJobs]
  split
  · rename_i heq
    rw [h, heq]
  · rfl

lemma queued_readNew : (s.readNew stream').2.queued stream = s.queued stream := by
  rw [readNew]
  split
  · rfl
  · exact queued_setJobs_of_eq rfl

lemma queued_xreadgroup {streams : List String} : (s.xreadgroup streams).2.queued stream =
    s.queued stream := by
  induction streams generalizing s with
  | nil => rfl
  | cons stream' rest ih => exact ih.trans queued_readNew

/-- Commands that leave the entries alone. -/
lemma queued_run {r : c.Reply} (hc : [Area.queue, .settle, .unqueue].contains c.area = false)
    (h : s.run c ch = some (s', r)) : s'.queued stream = s.queued stream := by
  cases c with
  | xaddJob _ _ _ _ | xack _ _ | xdel _ _ | cancelQueued _ _ => cases hc
  | xgroupCreate stream' =>
    cases h
    exact queued_setJobs_of_eq rfl
  | xreadgroup streams =>
    cases h
    exact queued_xreadgroup
  | xautoclaim stream' =>
    obtain ⟨-, h⟩ := Option.ite_none_right_eq_some.1 h
    cases h
    exact queued_setJobs_of_eq rfl
  | _ => exact congrArg (fun f => (f stream).entries) (show s.Agree s' .jobs from agree_run rfl h)

lemma queued_xaddJob {kind : JobKind} {inst : String} {env : B} :
    (s.xaddJob stream' kind inst env).queued stream =
      s.queued stream ++ if stream = stream' then [⟨s.lastID + 1, kind, inst, env⟩] else [] := by
  show (s.setJobs stream' _).queued stream = _
  rw [queued_setJobs]
  split
  · rename_i heq
    rw [heq]
    rfl
  · rw [append_nil]

end Server

/-! ## Programs that remove no jobs -/

variable {B : Type} {stream : String} {kind : JobKind} {inst : String}

/-- The `XADD` of such a job was carried out. -/
def AddedTo (stream : String) (kind : JobKind) (inst : String) (log : List (Cmd B × Fate)) : Prop :=
  ∃ x ∈ log, x.2.landed = true ∧ ∃ env, x.1 = .xaddJob stream kind inst env

variable {l l' : List (Cmd B × Fate)}

lemma addedTo_append :
    AddedTo stream kind inst (l ++ l') ↔ AddedTo stream kind inst l ∨
    AddedTo stream kind inst l' := by
  simp only [AddedTo, mem_append, or_and_right, exists_or]

lemma addedTo_singleton {x : Cmd B × Fate} :
    AddedTo stream kind inst [x] ↔ x.2.landed ∧ ∃ env, x.1 = .xaddJob stream kind inst env := by
  simp only [AddedTo, mem_singleton, exists_eq_left]

/-- What a stream has in addition are the jobs that were added. -/
def Grown (stream : String) (s s' : Server B) (log : List (Cmd B × Fate)) : Prop :=
  ∃ new, s'.queued stream = s.queued stream ++ new ∧
    ∀ kind inst, (∃ e ∈ new, e.kind = kind ∧ e.inst = inst) ↔ AddedTo stream kind inst log

variable {s : Server B}

lemma Grown.refl : Grown stream s s [] :=
  ⟨[], (append_nil _).symm, fun kind inst => by simp [AddedTo]⟩

variable {s₁ s₂ : Server B}

lemma Grown.trans (h : Grown stream s s₁ l)
    (h' : Grown stream s₁ s₂ l') : Grown stream s s₂ (l ++ l') := by
  obtain ⟨new, hnew, hiff⟩ := h
  obtain ⟨new', hnew', hiff'⟩ := h'
  refine ⟨new ++ new', by rw [hnew', hnew, append_assoc], fun kind inst => ?_⟩
  rw [addedTo_append, ← hiff, ← hiff']
  simp only [mem_append, or_and_right, exists_or]

variable {c : Cmd B}

lemma Grown.step {ch : Choice} {r : c.Reply} {f : Fate}
    (h : Grown stream s s₁ l) (hc : [Area.settle, .unqueue].contains c.area = false) (hf : f.landed)
    (hrun : s₁.run c ch = some (s₂, r)) : Grown stream s s₂ (l ++ [(c, f)]) := by
  obtain ⟨new, hnew, hiff⟩ := h
  by_cases hadd : c.area = .queue
  · cases c with
    | xaddJob stream' kind inst env =>
      cases hrun
      refine ⟨new ++ if stream = stream' then [⟨s₁.lastID + 1, kind, inst, env⟩] else [],
        ?_, fun kind' inst' => ?_⟩
      · rw [Server.queued_xaddJob, hnew, append_assoc]
      · rw [addedTo_append, addedTo_singleton, ← hiff]
        simp only [mem_append, or_and_right, exists_or]
        refine or_congr_right ⟨?_, ?_⟩
        · rintro ⟨e, he, rfl, rfl⟩
          split at he
          · rename_i heq
            rw [mem_singleton.1 he, heq]
            exact ⟨hf, env, rfl⟩
          · exact absurd he not_mem_nil
        · rintro ⟨-, env', heq⟩
          cases heq
          rw [if_pos rfl]
          exact ⟨_, .head _, rfl, rfl⟩
    | _ => cases hadd
  · have hqueued : s₂.queued stream = s₁.queued stream := by
      refine Server.queued_run ?_ hrun
      simp only [contains_cons, Bool.or_eq_false_iff, beq_eq_false_iff_ne] at hc ⊢
      exact ⟨hadd, hc⟩
    refine ⟨new, hqueued.trans hnew, fun kind inst => ?_⟩
    rw [addedTo_append, addedTo_singleton, hiff]
    refine (or_iff_left ?_).symm
    rintro ⟨-, env, rfl⟩
    exact hadd rfl

lemma Grown.failed (h : Grown stream s s₁ l) : Grown stream s s₁ (l ++ [(c, .failed)]) := by
  obtain ⟨new, hnew, hiff⟩ := h
  refine ⟨new, hnew, fun kind inst => ?_⟩
  rw [addedTo_append, addedTo_singleton, hiff]
  exact (or_iff_left fun h => nomatch h.1).symm

/-- A program that removes no job leaves the jobs that were there and those it adds. -/
lemma grown_runs (stream : String) {α : Type} {as : List Area} {x : Act B α}
    {a : Except Failure α} {s' : Server B}
    {log : List (Cmd B × Fate)} (hx : Within as x)
    (has : [Area.settle, .unqueue].all (fun a => !as.contains a))
    (h : (service B).Runs x.run s log s' a) : Grown stream s s' log := by
  have hcmd (c : Cmd B) (hc : as.contains c.area = true) : [Area.settle, .unqueue].contains c.area =
      false := by
    rw [← Bool.not_eq_true]
    intro hmem
    have hnot := all_eq_true.1 has _ (contains_iff_mem.1 hmem)
    rw [hc] at hnot
    cases hnot
  exact h.keeps hx (fun _ _ c _ _ _ _ hc hrun hf hI => Grown.step hI (hcmd c hc) hf hrun)
    (fun _ _ _ => .failed) .refl

end Redis

end Blkit
