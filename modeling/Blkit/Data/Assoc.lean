import Mathlib.Data.List.Induction
import Mathlib.Data.List.Nodup
import Mathlib.Logic.Function.Basic
import Mathlib.Order.Basic

/-!
# Maps written in a loop, and lists without repetitions

Two loops that Go code writes over and over: `m[f(x)] = g(x)` for every `x` of a
list, and appending what has not been seen yet.
-/

namespace Blkit

open List

variable {α κ β : Type} [DecidableEq κ]

lemma pairwise_concat {R : α → α → Prop} {l : List α} {x : α} :
    (l ++ [x]).Pairwise R ↔ l.Pairwise R ∧ ∀ a ∈ l, R a x := by
  simp [pairwise_append]

lemma forall_mem_concat {p : α → Prop} {l : List α} {x : α} :
    (∀ a ∈ l ++ [x], p a) ↔ (∀ a ∈ l, p a) ∧ p x := by
  rw [forall_mem_append, forall_mem_singleton]

/-- Write `g x` at `f x`, for every `x` of a list in turn. -/
def writeAll (f : α → κ) (g : α → β) (l : List α) : κ → Option β :=
  l.foldl (fun m x => Function.update m (f x) (some (g x))) fun _ => none

/-- The last element of the list that is written at `k`. -/
def lastAt (f : α → κ) (l : List α) (k : κ) : Option α := l.reverse.find? fun x => f x = k

lemma writeAll_apply (f : α → κ) (g : α → β) (l : List α) (k : κ) :
    writeAll f g l k = (lastAt f l k).map g := by
  induction l using reverseRecOn with
  | nil => rfl
  | append_singleton l x ih =>
    rw [writeAll, foldl_append]
    rw [writeAll] at ih
    by_cases h : f x = k
    · simp [lastAt, h]
    · simp only [foldl_cons, foldl_nil, Function.update_of_ne (Ne.symm h), ih]
      simp [lastAt, h]

variable {f : α → κ} {l : List α} {k : κ} {x : α}

lemma lastAt_eq_some (h : lastAt f l k = some x) : x ∈ l ∧ f x = k :=
  ⟨by simpa using mem_of_find?_eq_some h, by simpa using find?_some h⟩

lemma lastAt_isSome : (lastAt f l k).isSome ↔ ∃ x ∈ l, f x = k := by
  simp [lastAt]

lemma lastAt_append (f : α → κ) (l m : List α) (k : κ) :
    lastAt f (l ++ m) k = (lastAt f m k).or (lastAt f l k) := by
  rw [lastAt, reverse_append, find?_append]
  rfl

lemma lastAt_map {γ : Type} (f : γ → κ) (g : α → γ) (l : List α) (k : κ) :
    lastAt f (l.map g) k = (lastAt (fun a => f (g a)) l k).map g := by
  rw [lastAt, ← map_reverse, find?_map]
  rfl

/-- When no two elements are written at one key, an element is the last at its own. -/
lemma lastAt_self (hl : (l.map f).Nodup) (hx : x ∈ l) : lastAt f l (f x) = some x := by
  obtain ⟨y, hy⟩ := Option.isSome_iff_exists.1 (lastAt_isSome (f := f).2 ⟨x, hx, rfl⟩)
  obtain ⟨hyl, hfy⟩ := lastAt_eq_some hy
  rw [hy, inj_on_of_nodup_map hl hyl hx hfy]

/-- Two orders of one list name the same value at `k` just when the elements they name have it. -/
lemma map_lastAt_eq_iff {l' : List α} (hl : l.Perm l') (v : α → β) :
    (lastAt f l k).map v = (lastAt f l' k).map v ↔
      ∀ x y, lastAt f l k = some x → lastAt f l' k = some y → v x = v y := by
  have hsome : (lastAt f l k).isSome ↔ (lastAt f l' k).isSome := by
    simp only [lastAt_isSome, hl.mem_iff]
  cases hx : lastAt f l k <;> cases hy : lastAt f l' k <;> simp_all

/-- An element with the greatest key. -/
def IsLast {γ : Type} [LE γ] (key : α → γ) (l : List α) (x : α) : Prop :=
  x ∈ l ∧ ∀ y ∈ l, key y ≤ key x

section Sorted

variable {γ : Type} [PartialOrder γ] {key : α → γ}

lemma le_of_lastAt (hl : l.Pairwise fun a b => key a ≤ key b) (h : lastAt f l k = some x) :
    ∀ y ∈ l, f y = k → key y ≤ key x := by
  induction l using reverseRecOn with
  | nil => simp [lastAt] at h
  | append_singleton l z ih =>
    obtain ⟨hl', -, hz⟩ := pairwise_append.1 hl
    intro y hy hfy
    by_cases hfz : f z = k
    · -- the last element itself is written at `k`
      obtain rfl : z = x := by simpa [lastAt, hfz] using h
      rcases mem_append.1 hy with hy | hy
      · exact hz y hy z (by simp)
      · rw [mem_singleton.1 hy]
    · have h' : lastAt f l k = some x := by simpa [lastAt, hfz] using h
      rcases mem_append.1 hy with hy | hy
      · exact ih hl' h' y hy hfy
      · exact absurd (mem_singleton.1 hy ▸ hfy) hfz

/-- In a sorted list, the last element written at a key is the greatest one. -/
lemma lastAt_eq_some_iff (hl : l.Pairwise fun a b => key a ≤ key b)
    (hinj : ∀ x ∈ l, ∀ y ∈ l, key x = key y → x = y) :
    lastAt f l k = some x ↔ (x ∈ l ∧ f x = k) ∧ ∀ y ∈ l, f y = k → key y ≤ key x := by
  constructor
  · intro h
    exact ⟨lastAt_eq_some h, le_of_lastAt hl h⟩
  · rintro ⟨⟨hx, hfx⟩, hmax⟩
    obtain ⟨z, hz⟩ := Option.isSome_iff_exists.1 ((lastAt_isSome (f := f)).2 ⟨x, hx, hfx⟩)
    obtain ⟨hzl, hfz⟩ := lastAt_eq_some hz
    rw [hz, hinj z hzl x hx (le_antisymm (hmax z hzl hfz) (le_of_lastAt hl hz x hx hfx))]

/-- The same, for a list whose elements at `k` are listed in some other way. -/
lemma lastAt_eq_some_iff_isLast {m : List α} (hl : l.Pairwise fun a b => key a ≤ key b)
    (hinj : ∀ x ∈ l, ∀ y ∈ l, key x = key y → x = y) (hm : ∀ x, x ∈ m ↔ x ∈ l ∧ f x = k) :
    lastAt f l k = some x ↔ IsLast key m x := by
  rw [lastAt_eq_some_iff hl hinj, IsLast, hm]
  simp only [hm, and_imp]

end Sorted

/-- Append what has not been seen yet. -/
def keepFirst (l : List κ) : List κ :=
  l.foldl (fun seen x => if x ∈ seen then seen else seen ++ [x]) []

lemma keepFirst_concat (l : List κ) (x : κ) :
    keepFirst (l ++ [x]) = if x ∈ keepFirst l then keepFirst l else keepFirst l ++ [x] := by
  rw [keepFirst, foldl_append]
  rfl

@[simp] lemma mem_keepFirst {l : List κ} {x : κ} : x ∈ keepFirst l ↔ x ∈ l := by
  induction l using reverseRecOn with
  | nil => rfl
  | append_singleton l y ih =>
    rw [keepFirst_concat, mem_append, ← ih]
    split
    · rename_i hy
      exact ⟨.inl, fun h => h.elim id fun h => mem_singleton.1 h ▸ hy⟩
    · rw [mem_append]

lemma keepFirst_nodup (l : List κ) : (keepFirst l).Nodup := by
  induction l using reverseRecOn with
  | nil => exact nodup_nil
  | append_singleton l y ih =>
    rw [keepFirst_concat]
    split
    · exact ih
    · rename_i hy
      exact nodup_append.2 ⟨ih, nodup_singleton y, fun a ha b hb e =>
        hy (mem_singleton.1 hb ▸ e ▸ ha)⟩

end Blkit
