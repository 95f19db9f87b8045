import Mathlib.Data.List.Basic
import Mathlib.Data.List.GetD

/-!
# Timers

A timer is armed when it is started.  When its time has come it is due: its callback has
started and will do its work as soon as it gets to it.  Stopping an armed timer spends it;
stopping one that is due comes too late.  Nothing is said about how long a timer takes, so
what is proved holds for every timing.
-/

namespace Blkit

open List

inductive TimerState where
  | armed | due | spent
deriving DecidableEq, Repr

/-- A timer, with what its callback is about. -/
structure Timer (α : Type) where
  load : α
  state : TimerState
deriving DecidableEq, Repr

/-- All timers that were ever started, in the order they were started in. -/
abbrev Timers (α : Type) := List (Timer α)

namespace Timers

variable {α : Type} (ts : Timers α) (i : Nat)

/-- A new timer is started; its number is the length of the list before. -/
def start (a : α) : Timers α := ts ++ [⟨a, .armed⟩]

/-- Stop a timer. -/
def stop : Timers α :=
  ts.modify i fun t => if t.state = .armed then { t with state := .spent } else t

/-- The time of a timer has come. -/
def fire : Option (Timers α) :=
  match ts[i]? with
  | some ⟨a, .armed⟩ => some (ts.set i ⟨a, .due⟩)
  | _ => none

/-- The callback of a timer gets to its work. -/
def call : Option (α × Timers α) :=
  match ts[i]? with
  | some ⟨a, .due⟩ => some (a, ts.set i ⟨a, .spent⟩)
  | _ => none

variable {ts} {i} {j : Nat} {t : Timer α} {ts' : Timers α} {a b : α}

@[simp] lemma length_start : (ts.start a).length = ts.length + 1 := by simp [start]

@[simp] lemma length_stop : (ts.stop i).length = ts.length := by simp [stop]

lemma getElem?_start : (ts.start a)[j]? = if j = ts.length then some ⟨a, .armed⟩ else ts[j]? := by
  rw [start]
  split
  · rename_i h
    rw [h, getElem?_concat_length]
  · rename_i h
    rcases Nat.lt_or_gt_of_ne h with hlt | hgt
    · rw [getElem?_append_left hlt]
    · rw [getElem?_eq_none, getElem?_eq_none (Nat.le_of_lt hgt)]
      rw [length_append, length_singleton]
      exact hgt

/-- A timer after another one, or itself, was stopped. -/
lemma getElem?_stop : (ts.stop i)[j]? =
    if i = j then ts[j]?.map fun t => if t.state = .armed then { t with state := .spent } else t
    else ts[j]? := by
  rw [stop, getElem?_modify]
  split <;> simp_all

lemma fire_eq_some (h : ts.fire i = some ts') :
    ∃ a, ts[i]? = some ⟨a, .armed⟩ ∧ ts' = ts.set i ⟨a, .due⟩ := by
  rw [fire] at h
  split at h
  · rename_i a hi
    exact ⟨a, hi, (Option.some.inj h).symm⟩
  · cases h

lemma call_eq_some (h : ts.call i = some (a, ts')) :
    ts[i]? = some ⟨a, .due⟩ ∧ ts' = ts.set i ⟨a, .spent⟩ := by
  rw [call] at h
  split at h
  · rename_i a hi
    cases h
    exact ⟨hi, rfl⟩
  · cases h

lemma length_fire (h : ts.fire i = some ts') : ts'.length = ts.length := by
  obtain ⟨a, -, rfl⟩ := fire_eq_some h
  exact length_set

lemma length_call (h : ts.call i = some (a, ts')) : ts'.length = ts.length := by
  obtain ⟨-, rfl⟩ := call_eq_some h
  exact length_set

/-- A list that differs in one place, where the timer is no longer armed. -/
lemma armed_set {s : TimerState} (hs : s ≠ .armed) (h : (ts.set i ⟨b, s⟩)[j]? = some ⟨a, .armed⟩) :
    ts[j]? = some ⟨a, .armed⟩ := by
  rw [getElem?_set] at h
  split at h
  · split at h
    · exact absurd (congrArg Timer.state (Option.some.inj h)) hs
    · cases h
  · exact h

/-- A timer that is due after another one, or itself, was stopped was due before. -/
lemma due_stop (h : (ts.stop i)[j]? = some ⟨a, .due⟩) : ts[j]? = some ⟨a, .due⟩ := by
  rw [getElem?_stop] at h
  split at h
  · obtain ⟨t, ht, heq⟩ := Option.map_eq_some_iff.1 h
    split at heq
    · cases heq
    · rw [ht, heq]
  · exact h

lemma due_start (h : (ts.start b)[j]? = some ⟨a, .due⟩) : ts[j]? = some ⟨a, .due⟩ := by
  rw [getElem?_start] at h
  split at h
  · cases h
  · exact h

lemma due_call (h : ts.call i = some (b, ts')) (hj : ts'[j]? = some ⟨a, .due⟩) :
    ts[j]? = some ⟨a, .due⟩ := by
  obtain ⟨-, rfl⟩ := call_eq_some h
  rw [getElem?_set] at hj
  split at hj
  · split at hj <;> cases hj
  · exact hj

/-- A timer that is due was due before, or its time has just come. -/
lemma due_fire (h : ts.fire i = some ts') (hj : ts'[j]? = some ⟨a, .due⟩) :
    ts[j]? = some ⟨a, .due⟩ ∨ ts[j]? = some ⟨a, .armed⟩ := by
  obtain ⟨b, hi, rfl⟩ := fire_eq_some h
  rw [getElem?_set] at hj
  split at hj
  · rename_i hij
    split at hj
    · cases hj
      exact .inr (hij ▸ hi)
    · cases hj
  · exact .inl hj

lemma armed_fire (h : ts.fire i = some ts') (hj : ts'[j]? = some ⟨a, .armed⟩) :
    ts[j]? = some ⟨a, .armed⟩ := by
  obtain ⟨b, -, rfl⟩ := fire_eq_some h
  exact armed_set (s := .due) nofun hj

lemma armed_call (h : ts.call i = some (b, ts')) (hj : ts'[j]? = some ⟨a, .armed⟩) :
    ts[j]? = some ⟨a, .armed⟩ := by
  obtain ⟨-, rfl⟩ := call_eq_some h
  exact armed_set (s := .spent) nofun hj

end Timers

end Blkit
