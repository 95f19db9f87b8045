import Mathlib.Data.List.Induction
import Mathlib.Data.List.Pairwise
import Mathlib.Data.List.Sort

/-!
# Sorting a slice by a comparison

`sort.SliceStable` is given a comparison that need not be an order.  Up to 20 elements are
sorted by insertion; what is done with more is a parameter, of which two laws are used: it sorts
stably if the comparison is that of a key, and for any comparison it leaves the first 20 elements
as insertion has put them, since merging only puts other elements between them.

A comparison is that of a key if it is asymmetric and what is less than one element is less than
any other or has the other below the former; the key is then the number of smaller elements.
-/

namespace Blkit

open List

variable {α K : Type}

/-! ## Insertion -/

/-- The elements are moved to the left one by one, each as far as it is less than its neighbour. -/
def insertLeft (less : α → α → Bool) (l : List α) : List α :=
  (l.reverse.insertionSort fun a b => ¬ less a b).reverse

/-- `sort.SliceStable`: an insertion sort of up to 20 elements; `large` is what is done with more.
-/
def sliceStable (large : (α → α → Bool) → List α → List α) (less : α → α → Bool) (l : List α) :
    List α :=
  if l.length ≤ 20 then insertLeft less l else large less l

/-- Another element at the end does not change the order of the elements before it. -/
lemma insertLeft_sublist_append (less : α → α → Bool) (l m : List α) :
    insertLeft less l <+ insertLeft less (l ++ m) := by
  induction m using reverseRecOn with
  | nil => rw [append_nil]
  | append_singleton m a ih =>
    refine ih.trans ?_
    rw [← append_assoc, insertLeft, insertLeft, reverse_concat', insertionSort_cons,
      reverse_sublist]
    exact sublist_orderedInsert _ _

/-! ## Sorting by a key -/

section Keys

variable [LinearOrder K]

/-- The list in the order of a key; elements with the same key stay in the order they come in. -/
structure SortedBy (key : α → K) (l s : List α) : Prop where
  perm : s.Perm l
  sorted : s.Pairwise fun a b => key a ≤ key b
  stable : ∀ k, s.filter (key · = k) = l.filter (key · = k)

variable {key : α → K} {l l' s s' : List α}

/-- Up to elements with the same key, what is sorted does not depend on the order it comes in. -/
lemma SortedBy.forall₂ (h : SortedBy key l s) (h' : SortedBy key l' s') (hl : l'.Perm l) :
    Forall₂ (fun a b => key a = key b) s' s := by
  rw [← forall₂_map_right_iff, ← forall₂_map_left_iff, forall₂_eq_eq_eq]
  exact (((h'.perm.trans hl).trans h.perm.symm).map key).eq_of_pairwise (fun _ _ _ _ => le_antisymm)
    (pairwise_map.2 h'.sorted) (pairwise_map.2 h.sorted)

/-- Two elements with the same key that come first keep their order, so if it makes no difference
which of them is the very first, the one passes for the other. -/
lemma SortedBy.rel {R : α → α → Prop} (hR : ∀ a b, R a b → key a = key b) {a b : α}
    (hkey : key a = key b) (h : SortedBy key (a :: b :: l) s) (h' : SortedBy key (b :: a :: l) s')
    (hrel : Forall₂ R s s') : R a b := by
  have hfilter : Forall₂ R (s.filter (key · = key b)) (s'.filter (key · = key b)) :=
    rel_filter (fun c d hcd => by simp [hR c d hcd]) hrel
  rw [h.stable, h'.stable] at hfilter
  simp only [filter_cons, hkey, decide_true, if_true, forall₂_cons] at hfilter
  exact hfilter.1

lemma filter_orderedInsert (a : α) (l : List α) (k : K) :
    (l.orderedInsert (fun a b => key b ≤ key a) a).filter (key · = k) =
      (a :: l).filter (key · = k) := by
  induction l with
  | nil => rfl
  | cons b l ih =>
    rw [orderedInsert_cons]
    split
    · rfl
    · rename_i hab
      rw [filter_cons, ih, filter_cons, filter_cons, filter_cons]
      by_cases ha : key a = k
      · have hb : key b ≠ k := fun hb => hab (hb.trans ha.symm).le
        simp [ha, hb]
      · simp [ha]

lemma insertLeft_sortedBy {less : α → α → Bool}
    (hless : ∀ a ∈ l, ∀ b ∈ l, less a b ↔ key a < key b) : SortedBy key l (insertLeft less l) := by
  have hcongr := map_insertionSort (fun a b => ¬ less a b) (fun a b => key b ≤ key a) id l.reverse
    fun a ha b hb => by rw [hless a (mem_reverse.1 ha) b (mem_reverse.1 hb), not_lt, id, id]
  rw [map_id, map_id] at hcongr
  have : Std.Total fun a b => key b ≤ key a := ⟨fun a b => le_total _ _⟩
  have : IsTrans α fun a b => key b ≤ key a := ⟨fun a b c hab hbc => hbc.trans hab⟩
  have hfilter (m : List α) (k : K) :
      (m.insertionSort fun a b => key b ≤ key a).filter (key · = k) = m.filter (key · = k) := by
    induction m with
    | nil => rfl
    | cons a m ih => rw [insertionSort_cons, filter_orderedInsert, filter_cons, ih, filter_cons]
  rw [insertLeft, hcongr]
  refine ⟨?_, pairwise_reverse.2 (pairwise_insertionSort _ _), fun k => ?_⟩
  · exact ((reverse_perm _).trans (perm_insertionSort _ _)).trans (reverse_perm l)
  · rw [filter_reverse, hfilter, filter_reverse, reverse_reverse]

end Keys

/-- What is assumed of the sort of many elements. -/
structure StableSorting (sort : (α → α → Bool) → List α → List α) : Prop where
  sortedBy : ∀ {less : α → α → Bool} {l} {key : α → ℕ},
    (∀ a ∈ l, ∀ b ∈ l, less a b ↔ key a < key b) → SortedBy key l (sort less l)
  first : ∀ less l, insertLeft less (l.take 20) <+ sort less l

variable {less : α → α → Bool} {l : List α} {large : (α → α → Bool) → List α → List α}

lemma insertLeft_stableSorting : StableSorting (@insertLeft α) where
  sortedBy := insertLeft_sortedBy
  first less l := by
    conv_rhs => rw [← take_append_drop 20 l]
    exact insertLeft_sublist_append _ _ _

lemma StableSorting.sliceStable (h : StableSorting large) : StableSorting (sliceStable large) where
  sortedBy {less l key} hless := by
    rw [Blkit.sliceStable]
    split
    · exact insertLeft_sortedBy hless
    · exact h.sortedBy hless
  first less l := by
    rw [Blkit.sliceStable]
    split
    · exact insertLeft_stableSorting.first less l
    · exact h.first less l

/-- Elements that come first and are in order, each compared with its neighbour, stay in order. -/
lemma StableSorting.sublist (h : StableSorting large) {m : List α} (hlen : l.length ≤ 20)
    (hl : insertLeft less l = l) : l <+ large less (l ++ m) := by
  have hfirst := h.first less (l ++ m)
  rw [take_append, take_of_length_le hlen] at hfirst
  exact (hl ▸ insertLeft_sublist_append less l _).trans hfirst

lemma exists_append_perm {m : List α} (hm : m.Nodup) (h : m ⊆ l) : ∃ m', (m ++ m').Perm l := by
  obtain ⟨s, hs, hsub⟩ := subperm_of_subset hm h
  obtain ⟨m', hm'⟩ := hsub.exists_perm_append
  exact ⟨m', (hs.symm.append_right m').trans hm'.symm⟩

/-! ## Comparisons that are those of a key -/

/-- The number of smaller elements. -/
def rank (less : α → α → Bool) (l : List α) (a : α) : ℕ := l.countP (less · a)

/-- The comparison puts the elements in an order, ties allowed. -/
structure Ranks (less : α → α → Bool) (l : List α) : Prop where
  asymm : ∀ a ∈ l, ∀ b ∈ l, less a b → less b a = false
  between : ∀ a ∈ l, ∀ b ∈ l, ∀ c ∈ l, less a b → less a c ∨ less c b

lemma Ranks.less_iff (h : Ranks less l) :
    ∀ a ∈ l, ∀ b ∈ l, less a b ↔ rank less l a < rank less l b := by
  intro a ha b hb
  constructor
  · intro hab
    have hmono (m : List α) (hm : ∀ c ∈ m, c ∈ l) : m.countP (less · a) ≤ m.countP (less · b) := by
      refine countP_mono_left fun c hc hca => ?_
      have hba : ¬ less b a := by simp [h.asymm a ha b hb hab]
      exact (h.between c (hm c hc) a ha b hb hca).resolve_right hba
    have haa : less a a = false := by
      by_contra haa
      simp [h.asymm a ha a ha (by simpa using haa)] at haa
    obtain ⟨m, m', rfl⟩ := append_of_mem ha
    have hm := hmono m fun c hc => mem_append_left _ hc
    have hm' := hmono m' fun c hc => mem_append_right _ (mem_cons_of_mem _ hc)
    simp only [rank, countP_append, countP_cons, haa, hab]
    simp
    omega
  · intro hlt
    by_contra hab
    refine absurd hlt (not_lt.2 (countP_mono_left fun c hc hcb => ?_))
    exact (h.between c hc b hb a ha hcb).resolve_right hab

end Blkit
