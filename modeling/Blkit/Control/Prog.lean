import Mathlib.Data.List.Basic

/-!
# Programs that talk to a service

A program issues commands one at a time and goes on with the reply.  A command may fail:
then there is no reply, and the program cannot know whether it was carried out.

A protocol says which commands a program may issue, as an automaton: in a state, a command
with its reply leads to a state.  A program obeys a protocol if it does so whatever the
replies are (`Obeys`).  This does not depend on what the service does, or on what other
programs do in between.
-/

namespace Blkit

/-- Programs with commands `C`, replies `R` and results in `α`. -/
inductive Prog (C : Type) (R : C → Type) (α : Type) where
  | done (a : α)
  | ask (c : C) (k : Option (R c) → Prog C R α)

namespace Prog

variable {C : Type} {R : C → Type} {α β ε : Type}

/-- One program after the other. -/
def bind : Prog C R α → (α → Prog C R β) → Prog C R β
  | .done a, f => f a
  | .ask c k, f => .ask c fun r => (k r).bind f

instance : Monad (Prog C R) where
  pure := .done
  bind := bind

/-- The command the program issues next, if it is not done. -/
def next : Prog C R α → Option C
  | .done _ => none
  | .ask c _ => some c

/-! ## Protocols -/

/-- What a command with its reply does to the state of a protocol. -/
abbrev Protocol (Q C : Type) (R : C → Type) := Q → (c : C) → Option (R c) → Q → Prop

variable {Q : Type} (N : Protocol Q C R)

/-- The program obeys the protocol from a state on, and is in one that allows its result when
it is done. -/
def Obeys (post : Q → α → Prop) : Q → Prog C R α → Prop
  | q, .done a => post q a
  | q, .ask c k => ∀ r, ∃ q', N q c r q' ∧ Obeys post q' (k r)

variable {N} {post post' : Q → α → Prop} {q : Q} {p : Prog C R α}

lemma Obeys.mono (h : Obeys N post q p) (hpost : ∀ q a, post q a → post' q a) :
    Obeys N post' q p := by
  induction p generalizing q with
  | done a => exact hpost q a h
  | ask c k ih =>
    intro r
    obtain ⟨q', hN, hk⟩ := h r
    exact ⟨q', hN, ih r hk⟩

lemma obeys_bind {f : α → Prog C R β} {post : Q → β → Prop} :
    Obeys N post q (p >>= f) ↔ Obeys N (fun q' a => Obeys N post q' (f a)) q p := by
  induction p generalizing q with
  | done a => exact Iff.rfl
  | ask c k ih =>
    refine forall_congr' fun r => exists_congr fun q' => and_congr_right fun _ => ?_
    exact ih r

/-! ## Programs that may end early -/

/-- A program that ends early with an error, or goes on with a value. -/
abbrev Try (C : Type) (R : C → Type) (ε : Type) := ExceptT ε (Prog C R)

/-- What is asked of a result that may be an error. -/
def orError (post : Q → Except ε β → Prop) (f : Q → α → Prop) : Q → Except ε α → Prop
  | q, .ok a => f q a
  | q, .error e => post q (.error e)

lemma obeys_try {x : Try C R ε α} {f : α → Try C R ε β} {post : Q → Except ε β → Prop} :
    Obeys N post q (x >>= f).run ↔
    Obeys N (orError post fun q' a => Obeys N post q' (f a).run) q x.run := by
  show Obeys N post q (Prog.bind x.run _) ↔ _
  rw [← show (x.run >>= ExceptT.bindCont f) = Prog.bind x.run (ExceptT.bindCont f) from rfl,
    obeys_bind]
  refine iff_of_eq (congrArg (fun g => Obeys N g q x.run) ?_)
  funext q' a
  cases a <;> rfl

/-- Issue a command, and go on also if it fails. -/
def attempt (ε : Type) (c : C) : Try C R ε (Option (R c)) :=
  ExceptT.mk (.ask c fun r => .done (.ok r))

/-- Issue a command that the program cannot do without. -/
def must (e : ε) (c : C) : Try C R ε (R c) :=
  ExceptT.mk (.ask c fun r => .done (r.elim (.error e) .ok))

/-- Go on only if the check passes. -/
def check (e : ε) (b : Bool) : Try C R ε Unit := if b then pure () else throw e

/-- The value, or else the error as one of the program. -/
def orThrow {δ : Type} (f : δ → ε) (x : Except δ α) : Try C R ε α :=
  match x with
  | .ok a => pure a
  | .error d => throw (f d)

variable {c : C} {e : ε}

lemma obeys_must {post : Q → Except ε (R c) → Prop} :
    Obeys N post q (must e c).run ↔ ∀ r : Option (R c), ∃ q', N q c r q' ∧
    post q' (r.elim (.error e) .ok) := Iff.rfl

/-- Go on whether there was an error or not. -/
def quietly (x : Try C R ε Unit) : Try C R ε Unit := ExceptT.mk (x.run >>= fun _ => pure (.ok ()))

/-! ## Programs a protocol does not notice -/

variable (N) in
/-- The program obeys the protocol from every state, and leaves it there. -/
def Still (x : Try C R ε α) : Prop := ∀ q, Obeys N (fun q' _ => q' = q) q x.run

variable {x : Try C R ε α} {f : α → Try C R ε β} {a : α}

lemma still_pure : Still N (pure a : Try C R ε α) := fun _ => rfl

/-- What comes after a program the protocol does not notice. -/
lemma Still.obeys {post : Q → Except ε β → Prop} (hx : Still N x)
    (hf : ∀ a, Obeys N post q (f a).run)
    (he : ∀ e, post q (.error e)) : Obeys N post q (x >>= f).run := by
  refine obeys_try.2 ((hx q).mono ?_)
  rintro q' (e | a) rfl
  · exact he e
  · exact hf a

lemma Still.bind (hx : Still N x) (hf : ∀ a, Still N (f a)) : Still N (x >>= f) :=
  fun q => hx.obeys (fun a => hf a q) fun _ => rfl

lemma still_must (hc : ∀ q r, N q c r q) : Still N (must e c) := fun q r => ⟨q, hc q r, rfl⟩

lemma still_attempt (hc : ∀ q r, N q c r q) : Still N (attempt ε c) := fun q r => ⟨q, hc q r, rfl⟩

/-! ## Protocols of what was heard

A program knows what the replies have told it, and what it may issue depends on that. -/

section Hearing

variable {allows : Q → C → Prop} {hear : Q → (c : C) → Option (R c) → Q}

variable (allows hear) in
def hearing : Protocol Q C R := fun q c r q' => allows q c ∧ q' = hear q c r

variable {post : Q → Except ε β → Prop}

lemma obeys_hearing_must {f : R c → Try C R ε β} (hc : allows q c)
    (hnone : post (hear q c none) (.error e))
    (hf : ∀ r, Obeys (hearing allows hear) post (hear q c (some r)) (f r).run) :
    Obeys (hearing allows hear) post q (must e c >>= f).run := by
  rw [obeys_try, obeys_must]
  rintro (_ | r)
  · exact ⟨_, ⟨hc, rfl⟩, hnone⟩
  · exact ⟨_, ⟨hc, rfl⟩, hf r⟩

lemma obeys_hearing_attempt {f : Option (R c) → Try C R ε β} (hc : allows q c)
    (hf : ∀ r, Obeys (hearing allows hear) post (hear q c r) (f r).run) :
    Obeys (hearing allows hear) post q (attempt ε c >>= f).run :=
  obeys_try.2 fun r => ⟨_, ⟨hc, rfl⟩, hf r⟩

end Hearing

/-! ## The commands of a program -/

/-- All commands the program may issue. -/
def All (P : C → Prop) : Prog C R α → Prop
  | .done _ => True
  | .ask c k => P c ∧ ∀ r, All P (k r)

lemma All.mono {P P' : C → Prop} (h : All P p) (hP : ∀ c, P c → P' c) : All P' p := by
  induction p with
  | done a => trivial
  | ask c k ih => exact ⟨hP c h.1, fun r => ih r (h.2 r)⟩

lemma All.bind {P : C → Prop} {f : α → Prog C R β} (hp : All P p) (hf : ∀ a, All P (f a)) :
    All P (p >>= f) := by
  induction p with
  | done a => exact hf a
  | ask c k ih => exact ⟨hp.1, fun r => ih r (hp.2 r)⟩

/-- As a protocol: a program issues commands with `P` only. -/
lemma All.obeys {P : C → Prop} (h : All P p) :
    Obeys (fun _ c _ _ => P c) (fun _ _ => True) () p := by
  induction p with
  | done a => trivial
  | ask c k ih => exact fun r => ⟨(), h.1, ih r (h.2 r)⟩

/-- The same of a program that may end early. -/
def Issues (P : C → Prop) (x : Try C R ε α) : Prop := All P x.run

variable {P : C → Prop}

lemma issues_pure : Issues P (pure a : Try C R ε α) := trivial

lemma issues_throw : Issues P (throw e : Try C R ε α) := trivial

lemma issues_must (hc : P c) : Issues P (must e c : Try C R ε (R c)) := ⟨hc, fun _ => trivial⟩

lemma issues_attempt (hc : P c) : Issues P (attempt ε c : Try C R ε (Option (R c))) :=
  ⟨hc, fun _ => trivial⟩

lemma issues_check {b : Bool} : Issues P (check e b : Try C R ε Unit) := by
  cases b with
  | false => exact issues_throw
  | true => exact issues_pure

lemma issues_orThrow {δ : Type} {g : δ → ε} {y : Except δ α} :
    Issues P (orThrow g y : Try C R ε α) := by
  cases y with
  | error d => exact issues_throw
  | ok a => exact issues_pure

lemma Issues.bind (hx : Issues P x) (hf : ∀ a, Issues P (f a)) : Issues P (x >>= f) := by
  refine All.bind (f := ExceptT.bindCont f) hx fun a => ?_
  cases a with
  | ok a => exact hf a
  | error e => trivial

lemma Issues.mono {P' : C → Prop} (h : Issues P x) (hP : ∀ c, P c → P' c) : Issues P' x :=
  All.mono h hP

lemma Issues.quietly {x : Try C R ε Unit} (hx : Issues P x) : Issues P (quietly x) :=
  All.bind hx fun _ => trivial

/-- A program is not noticed if none of its commands is. -/
lemma Issues.still (h : Issues P x) (hN : ∀ c, P c → ∀ q r, N q c r q) : Still N x := by
  intro q
  have hx : All P x.run := h
  generalize x.run = p at hx
  induction p with
  | done a => rfl
  | ask c k ih => exact fun r => ⟨q, hN c hx.1 q r, ih r (hx.2 r)⟩

/-! ## Areas

The commands fall into areas; a protocol about some areas does not notice a program that stays
within others. -/

section Areas

variable {A : Type} [DecidableEq A] (area : C → A)

/-- The program stays within some areas. -/
def Inside (as : List A) (x : Try C R ε α) : Prop := Issues (fun c => as.contains (area c) = true) x

/-- A protocol that is about some areas only. -/
def Concerns (N : Protocol Q C R) (as : List A) : Prop := ∀ c, area c ∉ as → ∀ q r, N q c r q

variable {area} {as as' : List A}

lemma Inside.bind (hx : Inside area as x) (hf : ∀ a, Inside area as (f a)) :
    Inside area as (x >>= f) := Issues.bind hx hf

lemma Inside.mono (h : Inside area as x) (hsub : as ⊆ as') : Inside area as' x :=
  Issues.mono h fun _ hc => List.contains_iff_mem.2 (hsub (List.contains_iff_mem.1 hc))

/-- A program that stays elsewhere is not noticed. -/
lemma Inside.unnoticed {N' : List A} (h : Inside area as x) (hN : Concerns area N N')
    (hdisj : as.all (fun a => a ∉ N')) : Still N x := by
  refine Issues.still h fun c hc => hN c ?_
  exact of_decide_eq_true (List.all_eq_true.1 hdisj _ (List.contains_iff_mem.1 hc))

end Areas

end Prog

end Blkit
