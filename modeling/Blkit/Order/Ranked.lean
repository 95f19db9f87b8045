import Blkit.Data.Assoc
import Blkit.Order.Stable

/-!
# One row of each group, and orders of arrival

A query that reports the greatest row of each group can be written with a row number or
by keeping the first row of each group of a sorted table.  Whatever order the rows are
reported in, a loop that stores them by group ends with what it would end with if it
went through the whole table in ascending order.

The second part compares two sorts of one list by what they do to the places of its
elements.
-/

namespace Blkit

open List

section Groups

variable {α κ K : Type} [DecidableEq κ] [LinearOrder K]

/-- No row of the group is greater. -/
def IsTop (group : α → κ) (key : α → K) (rows : List α) (a : α) : Prop :=
  a ∈ rows ∧ ∀ b ∈ rows, group b = group a → key b ≤ key a

/-- `ROW_NUMBER() OVER (PARTITION BY group ORDER BY key DESC)`, for keys that differ
inside a group. -/
def rowNumber (group : α → κ) (key : α → K) (rows : List α) (a : α) : ℕ :=
  rows.countP (fun b => group b = group a ∧ key a < key b) + 1

/-- The rows whose number is one. -/
def firstRows (group : α → κ) (key : α → K) (rows : List α) : List α :=
  rows.filter fun a => rowNumber group key rows a = 1

/-- `DISTINCT ON (group)`: the first row of each group. -/
def distinctOn (group : α → κ) : List α → List α
  | [] => []
  | a :: l => a :: (distinctOn group l).filter fun b => group b ≠ group a

variable {group : α → κ} {key : α → K} {rows : List α} {a : α}

lemma mem_firstRows : a ∈ firstRows group key rows ↔ IsTop group key rows a := by
  rw [firstRows, mem_filter, IsTop, decide_eq_true_eq, rowNumber, Nat.add_eq_right, countP_eq_zero]
  refine and_congr_right fun _ => forall₂_congr fun b _ => ?_
  rw [decide_eq_true_eq, not_and, not_lt]

lemma nodup_firstRows (hinj : ∀ a ∈ rows, ∀ b ∈ rows, key a = key b → a = b) (hrows : rows.Nodup) :
    ((firstRows group key rows).map group).Nodup := by
  refine List.Nodup.map_on (fun a ha b hb hab => ?_) (hrows.filter _)
  obtain ⟨ha, hmaxa⟩ := mem_firstRows.1 ha
  obtain ⟨hb, hmaxb⟩ := mem_firstRows.1 hb
  exact hinj a ha b hb (le_antisymm (hmaxb a ha hab) (hmaxa b hb hab.symm))

lemma nodup_distinctOn (group : α → κ) (l : List α) : ((distinctOn group l).map group).Nodup := by
  induction l with
  | nil => exact nodup_nil
  | cons a l ih =>
    rw [distinctOn, map_cons, nodup_cons]
    refine ⟨fun hmem => ?_, ih.sublist ((filter_sublist).map group)⟩
    obtain ⟨b, hb, hgroup⟩ := mem_map.1 hmem
    exact of_decide_eq_true (mem_filter.1 hb).2 hgroup

/-- In a table that lists each group in descending order, the first rows are the
greatest ones. -/
lemma mem_distinctOn {l : List α} (hl : l.Pairwise fun a b => group a = group b → key b < key a) :
    a ∈ distinctOn group l ↔ IsTop group key l a := by
  induction l with
  | nil => exact ⟨nofun, fun h => h.1⟩
  | cons c l ih =>
    rw [pairwise_cons] at hl
    rw [distinctOn, mem_cons, mem_filter, ih hl.2, decide_eq_true_eq]
    simp only [IsTop, mem_cons, forall_eq_or_imp]
    constructor
    · rintro (rfl | ⟨⟨ha, hmax⟩, hne⟩)
      · exact ⟨.inl rfl, fun _ => le_rfl, fun b hb hab => (hl.1 b hb hab.symm).le⟩
      · exact ⟨.inr ha, fun hca => absurd hca.symm hne, hmax⟩
    · rintro ⟨rfl | ha, hc, hmax⟩
      · exact .inl rfl
      · refine .inr ⟨⟨ha, hmax⟩, fun hac => ?_⟩
        exact absurd (hc hac.symm) (not_le.2 (hl.1 a ha hac.symm))

/-- What is stored last at each group, from the greatest rows in any order and from the
whole table in ascending order. -/
lemma lastAt_tops {m : List α} (hinj : ∀ a ∈ rows, ∀ b ∈ rows, key a = key b → a = b)
    (hm : (m.map group).Nodup) (hmem : ∀ a, a ∈ m ↔ IsTop group key rows a) (k : κ) :
    lastAt group m k = lastAt group (stableSort key rows) k := by
  have hsorted : (stableSort key rows).Pairwise fun a b => key a ≤ key b := by
    have : IsTrans α fun a b => key a ≤ key b := ⟨fun _ _ _ => le_trans⟩
    have : Std.Total fun a b : α => key a ≤ key b := ⟨fun _ _ => le_total _ _⟩
    exact pairwise_insertionSort _ rows
  ext x
  rw [lastAt_eq_some_iff hsorted fun a ha b hb =>
    hinj a (mem_stableSort.1 ha) b (mem_stableSort.1 hb)]
  simp only [mem_stableSort]
  constructor
  · intro h
    obtain ⟨hx, rfl⟩ := lastAt_eq_some h
    obtain ⟨hrow, hmax⟩ := (hmem x).1 hx
    exact ⟨⟨hrow, rfl⟩, hmax⟩
  · rintro ⟨⟨hrow, rfl⟩, hmax⟩
    exact lastAt_self hm ((hmem x).2 ⟨hrow, hmax⟩)

end Groups

section Arrival

variable {α β K : Type} [LinearOrder K] {key : α → K} {ord : α → ℕ} {l : List α}

/-- Sorting by key and ordinal what is listed by ordinal. -/
lemma stableSort_placeBy (hl : l.Pairwise fun a b => ord a < ord b) :
    stableSort (placeBy key ord) l = stableSort key l := by
  refine eq_stableSort hl ((stableSort_increasing (placeBy key ord) hl).imp fun {a b} h => ?_)
    fun a => mem_stableSort
  rcases placeBy_lt.1 h with h | ⟨heq, hord⟩
  · exact h
  · exact absurd (congrArg (fun p => (ofLex p).2) heq) hord.ne

/-- The elements as listed, by how many of the list have a smaller ordinal. -/
def ranks (ord : α → ℕ) (l : List α) : List ℕ := l.map fun a => l.countP fun b => ord b < ord a

/-- The places of the elements of a list, in the order a stable sort brings them into. -/
def arrivalOrder (key : α → K) (l : List α) : List ℕ :=
  (stableSort (fun p : α × ℕ => key p.1) l.zipIdx).map Prod.snd

lemma countP_ord (hl : l.Pairwise fun a b => ord a < ord b) {p : α × ℕ}
    (hp : p ∈ l.zipIdx) : (l.countP fun b => ord b < ord p.1) = p.2 := by
  induction l using reverseRecOn with
  | nil => cases hp
  | append_singleton l a ih =>
    obtain ⟨hl, -, hlast⟩ := pairwise_append.1 hl
    rw [zipIdx_append, mem_append] at hp
    rw [countP_append]
    rcases hp with hp | hp
    · have hlt : ord p.1 < ord a :=
        hlast p.1 (fst_mem_of_mem_zipIdx hp) a (mem_singleton_self a)
      rw [ih hl hp, countP_singleton, decide_eq_false hlt.asymm]
      rfl
    · obtain rfl : p = (a, l.length) := by simpa using hp
      have hall : (l.countP fun b => ord b < ord a) = l.length :=
        countP_eq_length.2 fun b hb => decide_eq_true (hlast b hb a (mem_singleton_self a))
      rw [hall, countP_singleton, decide_eq_false (lt_irrefl _)]
      rfl

/-- The ranks of a sorted list are the places its elements had before. -/
lemma ranks_stableSort (hl : l.Pairwise fun a b => ord a < ord b) (key : β → K) (g : α → β) :
    ranks ord (stableSort (fun a => key (g a)) l) = arrivalOrder key (l.map g) := by
  have hl' : stableSort (fun a => key (g a)) l =
      (stableSort (fun p : α × ℕ => key (g p.1)) l.zipIdx).map Prod.fst := by
    rw [map_stableSort (fun a => key (g a)) Prod.fst, zipIdx_map_fst]
  have hmap : (l.map g).zipIdx = l.zipIdx.map (Prod.map g id) := zipIdx_map
  rw [arrivalOrder, hmap, ← map_stableSort (fun p : β × ℕ => key p.1) (Prod.map g id), map_map,
    ranks]
  rw [show (stableSort (fun a => key (g a)) l).map _ = _ from congrArg (map _) hl', map_map]
  refine map_congr_left fun p hp => ?_
  rw [Function.comp_apply, (stableSort_perm _ l).countP_eq]
  exact countP_ord hl (mem_stableSort.1 hp)

lemma pairwise_iff_zipIdx {R : α → α → Prop} :
    l.Pairwise R ↔ ∀ p ∈ l.zipIdx, ∀ q ∈ l.zipIdx, p.2 < q.2 → R p.1 q.1 := by
  rw [pairwise_iff_getElem]
  constructor
  · rintro h ⟨a, i⟩ hp ⟨b, j⟩ hq hij
    simp only [mem_zipIdx_iff_getElem?, getElem?_eq_some_iff] at hp hq
    obtain ⟨hi, rfl⟩ := hp
    obtain ⟨hj, rfl⟩ := hq
    exact h i j hi hj hij
  · intro h i j hi hj hij
    exact h (l[i], i) (mem_zipIdx_iff_getElem?.2 (getElem?_eq_getElem hi)) (l[j], j)
      (mem_zipIdx_iff_getElem?.2 (getElem?_eq_getElem hj)) hij

/-- A numbered list is decided by its numbers. -/
lemma eq_of_map_snd {s s' : List (α × ℕ)} (hs : ∀ p ∈ s, p ∈ l.zipIdx)
    (hs' : ∀ p ∈ s', p ∈ l.zipIdx) (h : s.map Prod.snd = s'.map Prod.snd) : s = s' := by
  have hread {m : List (α × ℕ)} (hm : ∀ p ∈ m, p ∈ l.zipIdx) :
      m.map (Prod.map some id) = (m.map Prod.snd).map fun i => (l[i]?, i) := by
    rw [map_map]
    refine map_congr_left fun p hp => ?_
    rw [Function.comp_apply, mem_zipIdx_iff_getElem?.1 (hm p hp)]
    rfl
  have hinj : Function.Injective (Prod.map (some : α → Option α) (id : ℕ → ℕ)) :=
    (Option.some_injective α).prodMap Function.injective_id
  refine map_injective_iff.2 hinj ?_
  rw [hread hs, hread hs', h]

variable {K' : Type} [LinearOrder K'] {key' : α → K'}

/-- Two stable sorts agree exactly when they agree on every two elements. -/
lemma arrivalOrder_eq_iff : arrivalOrder key l = arrivalOrder key' l ↔
      l.Pairwise fun a b => key a ≤ key b ↔ key' a ≤ key' b := by
  have hz : l.zipIdx.Pairwise fun p q => p.2 < q.2 := by
    rw [← pairwise_map (f := Prod.snd), zipIdx_map_snd]
    exact pairwise_lt_range'
  have hs := stableSort_increasing (fun p : α × ℕ => key p.1) hz
  have hs' := stableSort_increasing (fun p : α × ℕ => key' p.1) hz
  rw [pairwise_iff_zipIdx]
  constructor
  · intro h p hp q hq hpq
    have heq := eq_of_map_snd (fun _ => mem_stableSort.1) (fun _ => mem_stableSort.1) h
    rw [← heq] at hs'
    have hboth := lt_iff_lt_of_increasing hs hs' (mem_stableSort.2 hp) (mem_stableSort.2 hq)
    simpa only [placeBy_lt, hpq, and_true, ← le_iff_lt_or_eq] using hboth
  · intro h
    refine congrArg (map Prod.snd) (eq_stableSort hz ?_ fun _ => mem_stableSort)
    refine hs.imp_of_mem fun {p q} hp hq hlt => ?_
    have hp := mem_stableSort.1 hp
    have hq := mem_stableSort.1 hq
    rw [placeBy_lt] at hlt ⊢
    rcases lt_trichotomy p.2 q.2 with hpq | hpq | hpq
    · have hle : key p.1 ≤ key q.1 := le_iff_lt_or_eq.2 (hlt.imp_right And.left)
      exact (((h p hp q hq hpq).1 hle).lt_or_eq).imp_right fun h => ⟨h, hpq⟩
    · have heq : p = q := eq_of_increasing (f := Prod.snd) hz hp hq hpq
      subst heq
      exact absurd hlt (by simp)
    · have hgt : ¬ key q.1 ≤ key p.1 := by
        rcases hlt with hlt | ⟨-, hlt⟩
        · exact hlt.not_ge
        · exact absurd hlt hpq.asymm
      exact .inl (not_le.1 fun hle => hgt ((h q hq p hp hpq).2 hle))

lemma stableSort_of_arrivalOrder
    (h : arrivalOrder key l = arrivalOrder key' l) : stableSort key l = stableSort key' l := by
  have heq := eq_of_map_snd (fun _ => mem_stableSort.1) (fun _ => mem_stableSort.1) h
  have hmap := congrArg (map Prod.fst) heq
  rwa [map_stableSort key Prod.fst, map_stableSort key' Prod.fst, zipIdx_map_fst] at hmap

lemma ranks_map {ord : β → ℕ} {g : α → β} (l : List α) :
    ranks ord (l.map g) = ranks (fun a => ord (g a)) l := by
  rw [ranks, map_map, ranks]
  refine map_congr_left fun a _ => ?_
  rw [Function.comp_apply, countP_map]
  rfl

/-- Sorting by key and ordinal keeps to the order of the list among equal keys just when the
ordinals increase there. -/
lemma stableSort_placeBy_iff (hord : l.Pairwise fun a b => ord a ≠ ord b) :
    stableSort (placeBy key ord) l = stableSort key l ↔
      l.Pairwise fun a b => key a = key b → ord a < ord b := by
  constructor
  · intro h
    rw [pairwise_iff_forall_sublist] at hord ⊢
    intro a b hab heq
    have hsorted : [a, b].Sublist (stableSort key l) := pair_sublist_insertionSort heq.le hab
    rw [← h] at hsorted
    have hle : placeBy key ord a ≤ placeBy key ord b :=
      rel_of_pairwise_cons ((pairwise_insertionSort _ l).sublist hsorted)
        (mem_singleton_self b)
    rcases hle.lt_or_eq with hlt | heq'
    · exact ((placeBy_lt.1 hlt).resolve_left heq.not_lt).2
    · exact absurd (congrArg (fun p => (ofLex p).2) heq') (hord hab)
  · refine fun h => stableSort_of_arrivalOrder (arrivalOrder_eq_iff.2 (h.imp fun {a b} hab => ?_))
    rw [placeBy, placeBy, Prod.Lex.toLex_le_toLex]
    constructor
    · rintro (hlt | ⟨heq, -⟩)
      · exact hlt.le
      · exact heq.le
    · intro hle
      rcases hle.lt_or_eq with hlt | heq
      · exact .inl hlt
      · exact .inr ⟨heq, (hab heq).le⟩

/-- A sort by keys that tell the elements apart does not see how they are listed. -/
lemma stableSort_of_perm {m : List α} (hperm : l.Perm m)
    (hinj : ∀ a ∈ l, ∀ b ∈ l, key a = key b → a = b) : stableSort key l = stableSort key m := by
  have hp : (stableSort key l).Perm (stableSort key m) :=
    (stableSort_perm key l).trans (hperm.trans (stableSort_perm key m).symm)
  refine hp.eq_of_pairwise (fun a b ha hb hab hba => ?_) (pairwise_insertionSort _ l)
    (pairwise_insertionSort _ m)
  exact hinj a (mem_stableSort.1 ha) b (hperm.mem_iff.2 (mem_stableSort.1 hb)) (le_antisymm hab hba)

end Arrival

end Blkit
