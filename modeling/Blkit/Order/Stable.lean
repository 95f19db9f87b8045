import Mathlib.Data.List.Pairwise
import Mathlib.Data.List.Sort
import Mathlib.Data.Prod.Lex

/-!
# Lists in the order of a key

A list whose keys increase is decided by its elements.  A stable sort by a key puts
elements with different ordinals, listed by ordinal, in the order of key and ordinal;
so what it returns, ordinals forgotten, does not depend on them.
-/

namespace Blkit

open List

variable {α β K : Type} [LinearOrder K]

section Increasing

variable {f : α → K} {l l' : List α}

lemma nodup_of_increasing (h : l.Pairwise fun a b => f a < f b) : (l.map f).Nodup := by
  rw [List.Nodup, pairwise_map]
  exact h.imp fun h => h.ne

variable {a b : α}

lemma eq_of_increasing (h : l.Pairwise fun a b => f a < f b) (ha : a ∈ l) (hb : b ∈ l)
    (heq : f a = f b) : a = b := inj_on_of_nodup_map (nodup_of_increasing h) ha hb heq

/-- Two lists in the order of a key, with the same elements. -/
lemma increasing_ext (h : l.Pairwise fun a b => f a < f b) (h' : l'.Pairwise fun a b => f a < f b)
    (hmem : ∀ a, a ∈ l ↔ a ∈ l') : l = l' := by
  have hperm : l.Perm l' :=
    (perm_ext_iff_of_nodup (nodup_of_increasing h).of_map (nodup_of_increasing h').of_map).2 hmem
  refine hperm.eq_of_pairwise (fun a b _ _ hab hba => ?_) h h'
  exact absurd hab (not_lt_of_gt hba)

/-- A list in the order of two keys. -/
lemma lt_iff_lt_of_increasing {K' : Type} [LinearOrder K'] {g : α → K'}
    (h : l.Pairwise fun a b => f a < f b) (h' : l.Pairwise fun a b => g a < g b)
    (ha : a ∈ l) (hb : b ∈ l) : f a < f b ↔ g a < g b := by
  let R (a b : α) : Prop := (f a < f b ↔ g a < g b) ∧ (f b < f a ↔ g b < g a)
  have : Std.Symm R := ⟨fun _ _ => And.symm⟩
  have hR : l.Pairwise R := (h.and h').imp fun {a b} hab =>
    ⟨iff_of_true hab.1 hab.2, iff_of_false hab.1.asymm hab.2.asymm⟩
  have hrefl : ∀ x ∈ l, R x x := fun x _ => ⟨iff_of_false (lt_irrefl _) (lt_irrefl _),
    iff_of_false (lt_irrefl _) (lt_irrefl _)⟩
  exact (hR.forall_of_forall hrefl ha hb).1

end Increasing

section Stable

/-- A stable sort by a key. -/
def stableSort (key : α → K) (l : List α) : List α := l.insertionSort fun a b => key a ≤ key b

lemma stableSort_perm (key : α → K) (l : List α) : (stableSort key l).Perm l :=
  perm_insertionSort _ _

variable {key : α → K} {l : List α} {a : α}

lemma mem_stableSort : a ∈ stableSort key l ↔ a ∈ l := (stableSort_perm key l).mem_iff

/-- The place of an element: its key, then its ordinal. -/
def placeBy (key : α → K) (ord : α → ℕ) (a : α) : K ×ₗ ℕ := toLex (key a, ord a)

variable {ord : α → ℕ}

lemma placeBy_lt {b : α} :
    placeBy key ord a < placeBy key ord b ↔ key a < key b ∨ key a = key b ∧ ord a < ord b := by
  rw [placeBy, placeBy, Prod.Lex.toLex_lt_toLex]

/-- Elements listed by ordinal are sorted by key and ordinal. -/
lemma stableSort_increasing (key : α → K) (h : l.Pairwise fun a b => ord a < ord b) :
    (stableSort key l).Pairwise fun a b => placeBy key ord a < placeBy key ord b := by
  induction l with
  | nil => exact List.Pairwise.nil
  | cons a l ih =>
    rw [pairwise_cons] at h
    have hrest := ih h.2
    have hord : ∀ b ∈ stableSort key l, ord a < ord b := fun b hb => h.1 b (mem_stableSort.1 hb)
    show (orderedInsert _ a (stableSort key l)).Pairwise _
    generalize stableSort key l = m at hrest hord
    clear ih h
    induction m with
    | nil => simp
    | cons b m ih =>
      rw [pairwise_cons] at hrest
      rw [forall_mem_cons] at hord
      rw [orderedInsert_cons]
      split
      · rename_i hle
        have hab : placeBy key ord a < placeBy key ord b := by
          rw [placeBy_lt]
          exact hle.lt_or_eq.imp_right fun h => ⟨h, hord.1⟩
        rw [pairwise_cons, pairwise_cons, forall_mem_cons]
        exact ⟨⟨hab, fun c hc => hab.trans (hrest.1 c hc)⟩, hrest⟩
      · rename_i hle
        rw [pairwise_cons]
        refine ⟨fun c hc => ?_, ih hrest.2 hord.2⟩
        rcases mem_cons.1 ((perm_orderedInsert _ a m).mem_iff.1 hc) with rfl | hc
        · rw [placeBy_lt]
          exact .inl (not_le.1 hle)
        · exact hrest.1 c hc

variable {m : List α}

/-- What is in the order of key and ordinal is the stable sort of what is listed by
ordinal. -/
lemma eq_stableSort (hl : l.Pairwise fun a b => ord a < ord b)
    (hm : m.Pairwise fun a b => placeBy key ord a < placeBy key ord b)
    (hmem : ∀ a, a ∈ m ↔ a ∈ l) : m = stableSort key l :=
  increasing_ext hm (stableSort_increasing key hl) fun a => (hmem a).trans mem_stableSort.symm

lemma filter_stableSort (hl : l.Pairwise fun a b => ord a < ord b) (p : α → Bool) :
    (stableSort key l).filter p = stableSort key (l.filter p) :=
  eq_stableSort (hl.filter p) ((stableSort_increasing key hl).filter p) fun a => by
    rw [mem_filter, mem_filter, mem_stableSort]

/-- A stable sort does not look at what the key does not see. -/
lemma map_stableSort (key : β → K) (g : α → β) (l : List α) :
    (stableSort (fun a => key (g a)) l).map g = stableSort key (l.map g) :=
  map_insertionSort _ _ g l fun _ _ _ _ => Iff.rfl

/-- A stable sort looks at the order of the keys only. -/
lemma stableSort_congr {K' : Type} [LinearOrder K'] {key' : α → K'}
    (h : ∀ a ∈ l, ∀ b ∈ l, key a ≤ key b ↔ key' a ≤ key' b) : stableSort key l =
      stableSort key' l := by
  have hmap := map_insertionSort (fun a b => key a ≤ key b) (fun a b => key' a ≤ key' b) id l h
  rwa [map_id, map_id] at hmap

/-- Two lists that correspond element by element, with the same keys, correspond when
sorted. -/
lemma forall₂_stableSort {R : α → β → Prop} {key' : β → K}
    (hkey : ∀ a b, R a b → key a = key' b) {m : List β} (h : List.Forall₂ R l m) :
    List.Forall₂ R (stableSort key l) (stableSort key' m) := by
  have hinsert {a : α} {b : β} (hab : R a b) {l : List α} {m : List β} (h : List.Forall₂ R l m) :
      List.Forall₂ R (l.orderedInsert (fun a a' => key a ≤ key a') a)
        (m.orderedInsert (fun b b' => key' b ≤ key' b') b) := by
    induction h with
    | nil => exact .cons hab .nil
    | cons hcd h ih =>
      rw [orderedInsert_cons, orderedInsert_cons, hkey _ _ hab, hkey _ _ hcd]
      split
      · exact .cons hab (.cons hcd h)
      · exact .cons hcd ih
  induction h with
  | nil => exact .nil
  | cons hab h ih => exact hinsert hab ih

variable {r : α → α → Prop}

end Stable

end Blkit
