import Blkit.Control.Pool

/-!
# Programs that run alone, with commands that fail

A program is run by itself.  Every command has its fate: it is done, it is done and the reply
is lost, or it fails.  What is said about such a run is said about its log, the commands that
were issued with their fates, and about the states of the service before and after.

A call that returns an error can be made again; it is repeated until it succeeds (`Repeats`).
If it sets a mark before its work is done, and goes by the mark when it is made again, then a
failure in between keeps it from its work (`Marks.done_iff`).
-/

namespace Blkit

open Prog List

inductive Fate where
  | done | lost | failed
deriving DecidableEq, Repr

/-- The command was carried out. -/
def Fate.landed : Fate → Bool
  | .done | .lost => true
  | .failed => false

namespace Service

variable {S C H α ε : Type} {R : C → Type} (V : Service S C R H)

/-- What a program does by a schedule of choices and fates; nothing if they do not fit. -/
def play : Prog C R α → S → List (H × Fate) → Option (List (C × Fate) × S × α)
  | .done a, s, [] => some ([], s, a)
  | .ask c k, s, (h, .done) :: l =>
    (V.run s c h).bind fun x => (play (k (some x.2)) x.1 l).map fun y => ((c, .done) :: y.1, y.2)
  | .ask c k, s, (h, .lost) :: l =>
    if V.fallible c then (V.run s c h).bind fun x => (play (k none) x.1 l).map fun y =>
      ((c, .lost) :: y.1, y.2) else none
  | .ask c k, s, (_, .failed) :: l =>
    if V.fallible c then (play (k none) s l).map fun y => ((c, .failed) :: y.1, y.2) else none
  | _, _, _ => none

/-- The program can run from a state to a state with this log and this result. -/
def Runs (p : Prog C R α) (s : S) (log : List (C × Fate)) (s' : S) (a : α) : Prop :=
  ∃ l, V.play p s l = some (log, s', a)

variable {V} {s s' : S} {log : List (C × Fate)} {a b : α} {c : C} {k : Option (R c) → Prog C R α}
  {p : Prog C R α}

lemma Runs.of_done (h : V.Runs (.done a) s log s' b) : log = [] ∧ s' = s ∧ b = a := by
  obtain ⟨l, h⟩ := h
  cases l with
  | nil =>
    cases h
    exact ⟨rfl, rfl, rfl⟩
  | cons x l => cases h

/-- How a program that issues a command goes on. -/
inductive Goes (V : Service S C R H) (c : C) (k : Option (R c) → Prog C R α)
    (s : S) (s' : S) (b : α) :
    List (C × Fate) → Prop
  | done (h : H) (s₁ : S) (r : R c) (log : List (C × Fate)) (hrun : V.run s c h = some (s₁, r))
      (hk : V.Runs (k (some r)) s₁ log s' b) : Goes V c k s s' b ((c, .done) :: log)
  | lost (h : H) (s₁ : S) (r : R c) (log : List (C × Fate)) (hc : V.fallible c = true)
      (hrun : V.run s c h = some (s₁, r)) (hk : V.Runs (k none) s₁ log s' b) : Goes V c k
        s s' b ((c, .lost) :: log)
  | failed (h : H) (log : List (C × Fate)) (hc : V.fallible c = true)
      (hk : V.Runs (k none) s log s' b) :
      Goes V c k s s' b ((c, .failed) :: log)

lemma Runs.of_ask (h : V.Runs (.ask c k) s log s' b) : Goes V c k s s' b log := by
  obtain ⟨l, h⟩ := h
  match l, h with
  | (ch, .done) :: l, h =>
    obtain ⟨⟨s₁, r⟩, hrun, h⟩ := Option.bind_eq_some_iff.1 h
    obtain ⟨⟨log', s₂, a⟩, hk, heq⟩ := Option.map_eq_some_iff.1 h
    cases heq
    exact .done ch s₁ r log' hrun ⟨l, hk⟩
  | (ch, .lost) :: l, h =>
    obtain ⟨hc, h⟩ := Option.ite_none_right_eq_some.1 h
    obtain ⟨⟨s₁, r⟩, hrun, h⟩ := Option.bind_eq_some_iff.1 h
    obtain ⟨⟨log', s₂, a⟩, hk, heq⟩ := Option.map_eq_some_iff.1 h
    cases heq
    exact .lost ch s₁ r log' hc hrun ⟨l, hk⟩
  | (ch, .failed) :: l, h =>
    obtain ⟨hc, h⟩ := Option.ite_none_right_eq_some.1 h
    obtain ⟨⟨log', s₂, a⟩, hk, heq⟩ := Option.map_eq_some_iff.1 h
    cases heq
    exact .failed ch log' hc ⟨l, hk⟩

lemma Goes.runs (h : Goes V c k s s' b log) : V.Runs (.ask c k) s log s' b := by
  cases h with
  | done ch s₁ r log hrun hk =>
    obtain ⟨l, hl⟩ := hk
    refine ⟨(ch, .done) :: l, ?_⟩
    rw [play, hrun, Option.bind_some, hl]
    rfl
  | lost ch s₁ r log hc hrun hk =>
    obtain ⟨l, hl⟩ := hk
    refine ⟨(ch, .lost) :: l, ?_⟩
    rw [play, if_pos hc, hrun, Option.bind_some, hl]
    rfl
  | failed ch log hc hk =>
    obtain ⟨l, hl⟩ := hk
    refine ⟨(ch, .failed) :: l, ?_⟩
    rw [play, if_pos hc, hl]
    rfl

variable {β : Type} {f : α → Prog C R β}

/-- A run of two programs in sequence is two runs. -/
lemma Runs.of_bind {b : β} (h : V.Runs (p >>= f) s log s' b) :
    ∃ l₁ l₂ s₁ a, log = l₁ ++ l₂ ∧ V.Runs p s l₁ s₁ a ∧ V.Runs (f a) s₁ l₂ s' b := by
  induction p generalizing s log with
  | done a => exact ⟨[], log, s, a, rfl, ⟨[], rfl⟩, h⟩
  | ask c k ih =>
    have h : V.Runs (.ask c fun r => k r >>= f) s log s' b := h
    cases h.of_ask with
    | done ch s₁ r log hrun hk =>
      obtain ⟨l₁, l₂, s₂, a, rfl, h₁, h₂⟩ := ih (some r) hk
      exact ⟨(c, .done) :: l₁, l₂, s₂, a, rfl, (Goes.done ch s₁ r l₁ hrun h₁).runs, h₂⟩
    | lost ch s₁ r log hc hrun hk =>
      obtain ⟨l₁, l₂, s₂, a, rfl, h₁, h₂⟩ := ih none hk
      exact ⟨(c, .lost) :: l₁, l₂, s₂, a, rfl, (Goes.lost ch s₁ r l₁ hc hrun h₁).runs, h₂⟩
    | failed ch log hc hk =>
      obtain ⟨l₁, l₂, s₂, a, rfl, h₁, h₂⟩ := ih none hk
      exact ⟨(c, .failed) :: l₁, l₂, s₂, a, rfl, (Goes.failed ch l₁ hc h₁).runs, h₂⟩

/-- The log has commands of the program only. -/
lemma Runs.mem_log {P : C → Prop} (hp : All P p) (h : V.Runs p s log s' a) : ∀ x ∈ log, P x.1 := by
  induction p generalizing s log with
  | done b =>
    obtain ⟨rfl, -⟩ := h.of_done
    exact fun _ hx => absurd hx not_mem_nil
  | ask c k ih =>
    cases h.of_ask with
    | done ch s₁ r log hrun hk
    | lost ch s₁ r log hc hrun hk
    | failed ch log hc hk => exact forall_mem_cons.2 ⟨hp.1, ih _ (hp.2 _) hk⟩

/-! ## What holds after every run -/

variable (V) in
/-- After every run of the program from a state. -/
def Ensures (p : Prog C R α) (s : S) (post : List (C × Fate) → S → α → Prop) : Prop :=
  ∀ log s' a, V.Runs p s log s' a → post log s' a

variable {post : List (C × Fate) → S → α → Prop}

lemma ensures_done (h : post [] s a) : V.Ensures (.done a) s post := by
  intro log s' b hrun
  obtain ⟨rfl, rfl, rfl⟩ := hrun.of_done
  exact h

lemma ensures_ask (hdone : ∀ ch s₁ r, V.run s c ch = some (s₁, r) →
      V.Ensures (k (some r)) s₁ fun l => post ((c, .done) :: l))
    (hlost : V.fallible c → ∀ ch s₁ r, V.run s c ch = some (s₁, r) →
      V.Ensures (k none) s₁ fun l => post ((c, .lost) :: l))
    (hfailed : V.fallible c → V.Ensures (k none) s fun l => post ((c, .failed) :: l)) :
    V.Ensures (.ask c k) s post := by
  intro log s' b h
  cases h.of_ask with
  | done ch s₁ r log hrun hk => exact hdone ch s₁ r hrun _ _ _ hk
  | lost ch s₁ r log hc hrun hk => exact hlost hc ch s₁ r hrun _ _ _ hk
  | failed ch log hc hk => exact hfailed hc _ _ _ hk

lemma Ensures.bind {post : List (C × Fate) → S → β → Prop}
    (h : V.Ensures p s fun l s₁ a => V.Ensures (f a) s₁ fun l' => post (l ++ l')) :
      V.Ensures (p >>= f) s post := by
  intro log s' b hrun
  obtain ⟨l₁, l₂, s₁, a, rfl, h₁, h₂⟩ := hrun.of_bind
  exact h l₁ s₁ a h₁ l₂ s' b h₂

/-- What comes after a part that may end early. -/
lemma Ensures.try {x : Try C R ε α} {f : α → Try C R ε β}
    {post : List (C × Fate) → S → Except ε β → Prop}
    (h : V.Ensures x.run s fun l s₁ a =>
      match a with
      | .ok a => V.Ensures (f a).run s₁ fun l' => post (l ++ l')
      | .error e => post l s₁ (.error e)) : V.Ensures (x >>= f).run s post := by
  refine Ensures.bind (f := ExceptT.bindCont f) fun l s₁ a hrun => ?_
  cases a with
  | ok a => exact h l s₁ (.ok a) hrun
  | error e =>
    refine ensures_done ?_
    rw [append_nil]
    exact h l s₁ (.error e) hrun

/-- A command that is attempted is one entry of the log, whatever becomes of it. -/
lemma ensures_attempt : V.Ensures (Prog.attempt ε c).run s fun l _ a =>
    ∃ f r, l = [(c, f)] ∧ a = .ok r := by
  refine ensures_ask (fun ch s₁ r hrun => ?_) (fun _ ch s₁ r hrun => ?_) fun _ => ?_
  · exact ensures_done ⟨.done, _, rfl, rfl⟩
  · exact ensures_done ⟨.lost, _, rfl, rfl⟩
  · exact ensures_done ⟨.failed, _, rfl, rfl⟩

lemma Ensures.quietly {x : Try C R ε Unit} {post : List (C × Fate) → S → Prop}
    (h : V.Ensures x.run s fun l s₁ _ => post l s₁) :
    V.Ensures (quietly x).run s fun l s₁ a => post l s₁ ∧ a = .ok () := by
  refine Ensures.bind fun l s₁ a hrun => ensures_done ?_
  rw [append_nil]
  exact ⟨h l s₁ a hrun, rfl⟩

/-! ## What a run keeps -/

/-- A condition on the state of a protocol, the state of the service and the log so far that
every command keeps which the protocol allows. -/
structure Upholds {Q : Type} (V : Service S C R H) (N : Protocol Q C R)
    (I : Q → S → List (C × Fate) → Prop) : Prop where
  done : ∀ q s l c h s' r q', V.run s c h = some (s', r) → N q c (some r) q' → I q s l →
    I q' s' (l ++ [(c, .done)])
  lost : ∀ q s l c h s' r q', V.fallible c = true → V.run s c h = some (s', r) →
    N q c none q' → I q s l →
    I q' s' (l ++ [(c, .lost)])
  failed : ∀ q s l c q', V.fallible c = true → N q c none q' → I q s l →
    I q' s (l ++ [(c, .failed)])

variable {l : List (C × Fate)} {Q : Type} {N : Protocol Q C R}
  {I : Q → S → List (C × Fate) → Prop} {q : Q}

lemma Upholds.runs {post : Q → α → Prop} (hI : Upholds V N I) (hp : Obeys N post q p) (hs : I q s l)
    (h : V.Runs p s log s' a) :
    ∃ q', post q' a ∧ I q' s' (l ++ log) := by
  induction p generalizing q s l log with
  | done b =>
    obtain ⟨rfl, rfl, rfl⟩ := h.of_done
    rw [append_nil]
    exact ⟨q, hp, hs⟩
  | ask c k ih =>
    cases h.of_ask with
    | done ch s₁ r log hrun hk =>
      obtain ⟨q', hN, hq'⟩ := hp (some r)
      have hnext := ih (some r) hq' (hI.done q s l c ch s₁ r q' hrun hN hs) hk
      rwa [append_assoc] at hnext
    | lost ch s₁ r log hc hrun hk =>
      obtain ⟨q', hN, hq'⟩ := hp none
      have hnext := ih none hq' (hI.lost q s l c ch s₁ r q' hc hrun hN hs) hk
      rwa [append_assoc] at hnext
    | failed ch log hc hk =>
      obtain ⟨q', hN, hq'⟩ := hp none
      have hnext := ih none hq' (hI.failed q s l c q' hc hN hs) hk
      rwa [append_assoc] at hnext

/-- What the commands keep, whether they are carried out or not, is kept by a program. -/
lemma Runs.keeps {P : C → Prop} {I : S → List (C × Fate) → Prop}
    (h : V.Runs p s log s' a) (hp : All P p)
    (hrun : ∀ s l c ch s' r f, P c → V.run s c ch = some (s', r) → f.landed →
      I s l → I s' (l ++ [(c, f)]))
    (hfail : ∀ s l c, I s l → I s (l ++ [(c, .failed)])) (hs : I s []) : I s' log := by
  have hI : Upholds V (fun (_ : Unit) c _ _ => P c) fun _ => I :=
    ⟨fun _ s l c ch s' r _ hr hc => hrun s l c ch s' r .done hc hr rfl,
      fun _ s l c ch s' r _ _ hr hc => hrun s l c ch s' r .lost hc hr rfl,
      fun _ s l c _ _ _ => hfail s l c⟩
  obtain ⟨_, -, hend⟩ := hI.runs (All.obeys hp) hs h
  exact hend

/-! ## Calls that are repeated -/

/-- The call is made again after an error, until it succeeds; each time with a log. -/
inductive Repeats (V : Service S C R H) (p : Prog C R (Except ε α)) :
    S → List (List (C × Fate)) → S → α → Prop
  | ok {s s' : S} {log : List (C × Fate)} {a : α} (h : V.Runs p s log s' (.ok a)) :
      Repeats V p s [log] s' a
  | again {s s₁ s' : S} {log : List (C × Fate)} {logs : List (List (C × Fate))} {e : ε} {a : α}
      (h : V.Runs p s log s₁ (.error e)) (hrest : Repeats V p s₁ logs s' a) :
        Repeats V p s (log :: logs) s' a

/-- What the commands keep, whatever state of the protocol an attempt ends in, is kept by all
attempts. -/
lemma Upholds.repeats
    {p : Prog C R (Except ε α)} {logs : List (List (C × Fate))} {a : α} (hI : Upholds V N I)
    (hp : Obeys N (fun _ _ => True) q p) (hreset : ∀ q' s l, I q' s l → I q s l) (hs : I q s l)
    (h : V.Repeats p s logs s' a) : I q s' (l ++ logs.flatten) := by
  induction h generalizing l with
  | ok h =>
    obtain ⟨q', -, hend⟩ := hI.runs hp hs h
    rw [flatten_cons, flatten_nil, append_nil]
    exact hreset _ _ _ hend
  | again h hrest ih =>
    obtain ⟨q', -, hend⟩ := hI.runs hp hs h
    rw [flatten_cons, ← append_assoc]
    exact ih (hreset _ _ _ hend)

/-- A program is run again and again until a condition holds. -/
inductive Until (V : Service S C R H) (p : Prog C R α) (stop : S → Prop) :
    S → List (List (C × Fate)) → S → Prop
  | last {s s' : S} {log : List (C × Fate)} {a : α} (h : V.Runs p s log s' a) (hstop : stop s') :
      Until V p stop s [log] s'
  | again {s s₁ s' : S} {log : List (C × Fate)} {logs : List (List (C × Fate))}
      {a : α} (h : V.Runs p s log s₁ a)
      (hstop : ¬ stop s₁) (hrest : Until V p stop s₁ logs s') : Until V p stop s (log :: logs) s'

end Service

/-- Of the commands that were issued at most one was not done. -/
def SingleFailure {C : Type} (log : List (C × Fate)) : Prop :=
  (log.filter fun x => x.2 ≠ .done).length ≤ 1

instance {C : Type} (log : List (C × Fate)) : Decidable (SingleFailure log) :=
  inferInstanceAs (Decidable (_ ≤ _))

variable {C : Type} {log log' : List (C × Fate)}

lemma SingleFailure.of_append_right (h : SingleFailure (log ++ log')) : SingleFailure log' := by
  rw [SingleFailure, filter_append, length_append] at h
  exact Nat.le_trans (Nat.le_add_left _ _) h

/-- After the failure everything is done. -/
lemma SingleFailure.done_of_mem {x y : C × Fate}
    (h : SingleFailure (log ++ log')) (hx : x ∈ log) (hfate : x.2 ≠ .done) (hy : y ∈ log') :
      y.2 = .done := by
  by_contra hne
  have hmem {z : C × Fate} {l : List (C × Fate)} (hz : z ∈ l) (hne : z.2 ≠ .done) :
      0 < (l.filter fun x => x.2 ≠ .done).length :=
    length_pos_of_mem (mem_filter.2 ⟨hz, decide_eq_true hne⟩)
  have hx' := hmem hx hfate
  have hy' := hmem hy hne
  rw [SingleFailure, filter_append, length_append] at h
  omega

/-! ## Calls that mark their work -/

namespace Service

variable {S C H α ε : Type} {R : C → Type} {V : Service S C R H}

/-- A call that sets a mark before its work is done, and does nothing where the mark is set.
`Done` is what the work leads to, from one state to another with a log; `Harm` is a failure
that keeps it from that. -/
structure Marks (V : Service S C R H) (p : Prog C R (Except ε α)) (mark : S → Prop)
    (Done : S → List (C × Fate) → S → Prop) (Harm : C × Fate → Prop) : Prop where
  failed : ∀ x, Harm x → x.2 ≠ .done
  first : ∀ s log s' a, ¬ mark s → V.Runs p s log s' a →
    (¬ mark s' ∧ (∀ b, a ≠ .ok b) ∧ (∀ x ∈ log, ¬ Harm x) ∧ ∀ l t,
    Done s (log ++ l) t ↔ Done s' l t) ∨
    (mark s' ∧ (Done s log s' ↔ ∀ x ∈ log, ¬ Harm x) ∧ ((∃ b, a = .ok b) ∨ ∃ x ∈ log, x.2 ≠ .done))
  later : ∀ s log s' a, mark s → (∀ x ∈ log, x.2 = .done) → V.Runs p s log s' a →
    mark s' ∧ ∀ s₀ l, Done s₀ (l ++ log) s' ↔ Done s₀ l s

variable {p : Prog C R (Except ε α)} {mark : S → Prop} {Done : S → List (C × Fate) → S → Prop}
  {Harm : C × Fate → Prop}
  {s s₀ s' : S} {logs : List (List (C × Fate))} {a : α}

/-- Where the mark is set and nothing fails, nothing more is done. -/
lemma Marks.after (hp : Marks V p mark Done Harm) (h : V.Repeats p s logs s' a) (hs : mark s)
    (hall : ∀ x ∈ logs.flatten, x.2 = .done) (l : List (C × Fate)) : Done s₀ (l ++ logs.flatten)
      s' ↔ Done s₀ l s := by
  induction h generalizing l with
  | ok h =>
    rw [flatten_cons, flatten_nil, append_nil] at hall ⊢
    exact (hp.later _ _ _ _ hs hall h).2 s₀ l
  | again h hrest ih =>
    rw [flatten_cons] at hall ⊢
    obtain ⟨hmark, hdone⟩ := hp.later _ _ _ _ hs (fun x hx => hall x (mem_append_left _ hx)) h
    rw [← append_assoc, ih hmark fun x hx => hall x (mem_append_right _ hx)]
    exact hdone s₀ l

/-- With one failure in all repetitions, the work is done if and only if it does no harm. -/
lemma Marks.done_iff (hp : Marks V p mark Done Harm) (h : V.Repeats p s logs s' a) (hs : ¬ mark s)
    (hsingle : SingleFailure logs.flatten) : Done s logs.flatten s' ↔
    ∀ x ∈ logs.flatten, ¬ Harm x := by
  induction h with
  | ok h =>
    rw [flatten_cons, flatten_nil, append_nil]
    rcases hp.first _ _ _ _ hs h with ⟨-, herror, -⟩ | ⟨-, hiff, -⟩
    · exact absurd rfl (herror _)
    · exact hiff
  | again h hrest ih =>
    rw [flatten_cons, forall_mem_append] at *
    rcases hp.first _ _ _ _ hs h with ⟨hopen, -, hclean, hdone⟩ | ⟨hmark, hiff, hfail⟩
    · rw [hdone, ih hopen hsingle.of_append_right, and_iff_right hclean]
    · obtain ⟨x, hx, hne⟩ := hfail.resolve_left nofun
      have hrest_done := fun y hy => hsingle.done_of_mem hx hne (y := y) hy
      rw [hp.after hrest hmark hrest_done, hiff]
      exact (and_iff_left fun y hy hharm => hp.failed y hharm (hrest_done y hy)).symm

end Service

end Blkit
