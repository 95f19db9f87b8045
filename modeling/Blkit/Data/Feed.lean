import Blkit.Data.Assoc

/-!
# Maps kept up to date by a feed

A map is kept by its changes: a key is set, or it is deleted.  What a list of changes makes of
a map is known key by key: the last change of a key counts.
-/

namespace Blkit

inductive Change (K V : Type) where
  | set (k : K) (v : V)
  | delete (k : K)

namespace Change

variable {K V : Type}

def key : Change K V → K
  | .set k _ => k
  | .delete k => k

/-- What is at the key after the change. -/
def value : Change K V → Option V
  | .set _ v => some v
  | .delete _ => none

end Change

variable {K V : Type} [DecidableEq K]

/-- The changes are made in turn. -/
def applyChanges (m : K → Option V) (cs : List (Change K V)) : K → Option V :=
  cs.foldl (fun m c => Function.update m c.key c.value) m

variable {m : K → Option V} {cs ds : List (Change K V)} {k : K}

lemma applyChanges_append : applyChanges m (cs ++ ds) = applyChanges (applyChanges m cs) ds :=
  List.foldl_append

/-- The last change of a key counts. -/
lemma applyChanges_apply :
    applyChanges m cs k = ((lastAt Change.key cs k).map Change.value).getD (m k) := by
  induction cs using List.reverseRecOn with
  | nil => rfl
  | append_singleton cs c ih =>
    rw [applyChanges_append, lastAt_append]
    show Function.update (applyChanges m cs) c.key c.value k = _
    by_cases hk : c.key = k
    · subst hk
      rw [Function.update_self]
      simp [lastAt]
    · rw [Function.update_of_ne (Ne.symm hk), ih]
      simp [lastAt, hk]

/-- A key without a change stays as it was. -/
lemma applyChanges_of_forall_ne (h : ∀ c ∈ cs, c.key ≠ k) : applyChanges m cs k = m k := by
  rw [applyChanges_apply, show lastAt Change.key cs k = none from ?_]
  · rfl
  · rw [← Option.not_isSome_iff_eq_none, lastAt_isSome]
    rintro ⟨c, hc, rfl⟩
    exact h c hc rfl

/-- A loop each round of which changes keys of its own. -/
lemma applyChanges_flatMap {ι : Type} [DecidableEq ι] {o : K → ι} {is : List ι}
    {g : ι → List (Change K V)}
    (his : is.Nodup) (hg : ∀ i, ∀ c ∈ g i, o c.key = i) :
    applyChanges m (is.flatMap g) k = if o k ∈ is then applyChanges m (g (o k)) k else m k := by
  induction is generalizing m with
  | nil => rfl
  | cons i is ih =>
    rw [List.nodup_cons] at his
    have hother (hi : o k ≠ i) : applyChanges m (g i) k = m k :=
      applyChanges_of_forall_ne fun c hc hk => hi (hk ▸ hg i c hc)
    rw [List.flatMap_cons, applyChanges_append, ih his.2]
    by_cases hk : o k ∈ is
    · rw [if_pos hk, if_pos (.tail _ hk), applyChanges_apply, hother, ← applyChanges_apply]
      rintro rfl
      exact his.1 hk
    · rw [if_neg hk]
      by_cases hi : o k = i
      · rw [if_pos (hi ▸ .head _), hi]
      · rw [hother hi, if_neg fun h => (List.mem_cons.1 h).elim hi hk]

end Blkit
