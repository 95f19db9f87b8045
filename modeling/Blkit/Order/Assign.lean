import Blkit.Data.Fallible
import Blkit.Order.Before
import Mathlib.Logic.Function.Basic

/-!
# Straight-line programs of assignments

A list of keys is run by giving each key, in turn, a value computed from the store
as it then is.  When every key comes after the keys its value is computed from, the
final store solves a system of equations in which the order of the list no longer
appears, so that all such orders end in the same store.
-/

namespace Blkit.Assign

open Fallible List Function

variable {κ β ε : Type} (reads : κ → κ → Prop)

/-- Every key comes after the keys it reads. -/
def InOrder (L : List κ) : Prop := ∀ e ∈ L, ∀ x ∈ L, x ≠ e → reads e x → Before L x e

section Order

variable {reads} {e : κ} {L : List κ}

lemma InOrder.tail (hL : (e :: L).Nodup) (h : InOrder reads (e :: L)) : InOrder reads L := by
  intro e' he' x hx hne hr
  have hbefore := h e' (mem_cons_of_mem e he') x (mem_cons_of_mem e hx) hne hr
  rcases sublist_cons_iff.1 hbefore with hs | ⟨l, hl, -⟩
  · exact hs
  · rw [cons.injEq] at hl
    exact absurd (hl.1 ▸ hx) (nodup_cons.1 hL).1

/-- The first key reads no other listed key. -/
lemma InOrder.head (hL : (e :: L).Nodup) (h : InOrder reads (e :: L)) {x : κ} (hne : x ≠ e)
    (hr : reads e x) : x ∉ L := fun hx =>
  absurd ((h e (by simp) x (mem_cons_of_mem e hx) hne hr).mem_of_split hL
    (show e :: L = [] ++ e :: L from rfl)) (not_mem_nil)

end Order

variable [DecidableEq κ] (f : κ → (κ → β) → Except ε β)

/-- One assignment. -/
def step (s : κ → β) (e : κ) : Except ε (κ → β) := do
  let x ← f e s
  .ok (Function.update s e x)

/-- The value of a key depends only on the keys it reads. -/
def Local : Prop := ∀ e s t, (∀ x, reads e x → s x = t x) → f e s = f e t

/-- `t` solves the equations of the listed keys, and is `s` elsewhere.  A key that
reads itself reads its old value. -/
def Solves (L : List κ) (s t : κ → β) : Prop :=
  (∀ n, n ∉ L → t n = s n) ∧ ∀ e ∈ L, f e (Function.update t e (s e)) = .ok (t e)

variable {f reads} {e : κ} {L L' : List κ} {s t : κ → β}

/-- The first equation, and the equations of the others from the store after the
first assignment. -/
lemma solves_cons (hf : Local reads f) (hL : (e :: L).Nodup) (h : InOrder reads (e :: L)) :
    Solves f (e :: L) s t ↔ f e s = .ok (t e) ∧ Solves f L (update s e (t e)) t := by
  have he : e ∉ L := (nodup_cons.1 hL).1
  -- Wherever `t` is `s` outside the list, the first key reads the same from both.
  have hval (hout : ∀ n, n ≠ e → n ∉ L → t n = s n) :
      f e (update t e (s e)) = f e s := hf _ _ _ fun x hx => by
    by_cases hxe : x = e
    · simp [hxe]
    · rw [update_of_ne hxe, hout x hxe (h.head hL hxe hx)]
  have hne : ∀ e' ∈ L, e' ≠ e := fun e' he' heq => he (heq ▸ he')
  constructor
  · rintro ⟨hout, heq⟩
    refine ⟨?_, fun n hn => ?_, fun e' he' => ?_⟩
    · rw [← heq e (by simp), hval fun n hne hn => hout n (by simp [hne, hn])]
    · by_cases hne : n = e
      · simp [hne]
      · rw [update_of_ne hne, hout n (by simp [hne, hn])]
    · rw [update_of_ne (hne e' he')]
      exact heq e' (mem_cons_of_mem e he')
  · rintro ⟨hfirst, hout, heq⟩
    have hout' : ∀ n, n ≠ e → n ∉ L → t n = s n := fun n hne hn => by
      rw [hout n hn, update_of_ne hne]
    refine ⟨fun n hn => ?_, ?_⟩
    · rw [mem_cons, not_or] at hn
      exact hout' n hn.1 hn.2
    · rintro e' (_ | ⟨_, he'⟩)
      · rw [hval hout', hfirst]
      · rw [← heq e' he', update_of_ne (hne e' he')]

/-- A run in order ends in the solution. -/
lemma foldlM_step_eq_ok (hf : Local reads f) (hL : L.Nodup) (h : InOrder reads L) :
    L.foldlM (step f) s = .ok t ↔ Solves f L s t := by
  induction L generalizing s with
  | nil =>
    simp only [foldlM_nil, Solves, not_mem_nil, not_false_eq_true, forall_const,
      false_implies, implies_true, and_true, pure_eq_ok, Except.ok.injEq]
    exact ⟨fun h n => (congrFun h n).symm, fun h => funext fun n => (h n).symm⟩
  | cons e L ih =>
    have ih := fun s => ih (s := s) (nodup_cons.1 hL).2 (h.tail hL)
    simp only [foldlM_cons, step, bind_eq_ok, solves_cons hf hL h]
    constructor
    · rintro ⟨s₁, ⟨x, hx, hs⟩, hrun⟩
      cases hs
      have hsol := (ih _).1 hrun
      have hte : t e = x := by rw [hsol.1 e (nodup_cons.1 hL).1, update_self]
      exact ⟨hte ▸ hx, hte ▸ hsol⟩
    · rintro ⟨hfirst, hsol⟩
      exact ⟨_, ⟨_, hfirst, rfl⟩, (ih _).2 hsol⟩

/-- All orders in which every key comes after the keys it reads end in the same
store. -/
lemma foldlM_step_perm (hf : Local reads f) (hL : L.Nodup) (h : InOrder reads L)
    (h' : InOrder reads L') (hperm : L'.Perm L) :
    L'.foldlM (step f) s = .ok t ↔ L.foldlM (step f) s = .ok t := by
  rw [foldlM_step_eq_ok hf hL h, foldlM_step_eq_ok hf (hperm.nodup_iff.2 hL) h', Solves, Solves]
  simp only [hperm.mem_iff]

end Blkit.Assign
