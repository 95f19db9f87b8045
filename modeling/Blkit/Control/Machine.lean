import Mathlib.Data.List.Basic
import Mathlib.Data.List.Infix

/-!
# Machines and their runs

A machine takes a state and an action to the next state, or refuses the action.  A run is a
list of actions that are taken one after the other.  What is said about runs is said in one
of two ways: a condition on every action in the state it is taken in (`Along`), and a
condition on every state that is reached (`Always`).
-/

namespace Blkit

/-- A machine with states `S` and actions `A`. -/
structure Machine (S A : Type) where
  step : S → A → Option S

namespace Machine

variable {S A : Type} (M : Machine S A)

/-- What a list of actions does. -/
def exec (s : S) : List A → Option S
  | [] => some s
  | a :: as => (M.step s a).bind fun s' => exec s' as

/-- Every action is taken in a state where `P` holds of it. -/
def Along (P : S → A → Prop) (s : S) : List A → Prop
  | [] => True
  | a :: as => P s a ∧ ∀ s', M.step s a = some s' → Along P s' as

/-- `P` holds at the start and after every action. -/
def Always (P : S → Prop) (s : S) : List A → Prop
  | [] => P s
  | a :: as => P s ∧ ∀ s', M.step s a = some s' → Always P s' as

/-- The check that a run is made of actions that pass a test. -/
def checks (p : S → A → Bool) (s : S) : List A → Bool
  | [] => true
  | a :: as => p s a && (M.step s a).all fun s' => checks p s' as

variable {M} {P : S → A → Prop} {I : S → Prop} {s s' : S} {as : List A}

/-- What holds at the start and is kept by every action holds at the end. -/
lemma exec_induction (hstep : ∀ s a s', I s → M.step s a = some s' → I s') (hs : I s)
    (h : M.exec s as = some s') : I s' := by
  induction as generalizing s with
  | nil =>
    cases h
    exact hs
  | cons a as ih =>
    obtain ⟨s₁, h₁, h⟩ := Option.bind_eq_some_iff.1 h
    exact ih (hstep s a s₁ hs h₁) h

lemma along_of_checks {p : S → A → Bool} (hp : ∀ s a, p s a → P s a) (h : M.checks p s as) :
    M.Along P s as := by
  induction as generalizing s with
  | nil => trivial
  | cons a as ih =>
    rw [checks, Bool.and_eq_true] at h
    refine ⟨hp s a h.1, fun s' hs' => ih ?_⟩
    rw [hs'] at h
    exact h.2

lemma Always.head (h : M.Always I s as) : I s := by
  cases as with
  | nil => exact h
  | cons a as => exact h.1

/-- An invariant holds in every state of a run in which the actions are taken where `P`
holds. -/
lemma Along.always (hstep : ∀ s a s', P s a → I s → M.step s a = some s' → I s')
    (hP : M.Along P s as) (hs : I s) : M.Always I s as := by
  induction as generalizing s with
  | nil => exact hs
  | cons a as ih => exact ⟨hs, fun s' h => ih (hP.2 s' h) (hstep s a s' hP.1 hs h)⟩

/-- What holds of every action that is taken where `P` and an invariant hold. -/
lemma Along.along {Q : S → A → Prop} (hstep : ∀ s a s', P s a → I s → M.step s a = some s' → I s')
    (hQ : ∀ s a, P s a → I s → Q s a) (hP : M.Along P s as) (hs : I s) : M.Along Q s as := by
  induction as generalizing s with
  | nil => trivial
  | cons a as ih => exact ⟨hQ s a hP.1 hs, fun s' h => ih (hP.2 s' h) (hstep s a s' hP.1 hs h)⟩

/-- The other way round: what an action must be like if it leads to a state with `I`. -/
lemma Always.along {J : S → Prop} (hJ : ∀ s a s', J s → M.step s a = some s' → J s')
    (hP : ∀ s a, J s → I s → (∀ s', M.step s a = some s' → I s') → P s a)
    (h : M.Always I s as) (hs : J s) :
    M.Along P s as := by
  induction as generalizing s with
  | nil => trivial
  | cons a as ih =>
    exact ⟨hP s a hs h.1 fun s' hs' => (h.2 s' hs').head, fun s' hs' =>
      ih (h.2 s' hs') (hJ s a s' hs hs')⟩

/-- Several conditions at the same time. -/
lemma Always.all {ι : Type} {J : ι → S → Prop} (h : ∀ i, M.Always (J i) s as) :
    M.Always (fun s => ∀ i, J i s) s as := by
  induction as generalizing s with
  | nil => exact h
  | cons a as ih => exact ⟨fun i => (h i).1, fun s' hs' => ih fun i => (h i).2 s' hs'⟩

lemma Always.imp {J : S → Prop} (hIJ : ∀ s, I s → J s) (h : M.Always I s as) : M.Always J s as := by
  induction as generalizing s with
  | nil => exact hIJ s h
  | cons a as ih => exact ⟨hIJ s h.1, fun s' hs' => ih (h.2 s' hs')⟩

end Machine

end Blkit
