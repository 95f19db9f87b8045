import Blkit.Order.Stable

/-!
# Stores with ordered keys

A map that is iterated in the order of its keys, as embedded key-value stores are.
That the keys increase is part of the type; what a store holds is then decided by
`get`, and a list of its entries by which entries are in it.
-/

namespace Blkit

open List

/-- A finite map, its entries in the order of the keys. -/
structure KeyStore (K V : Type) [LinearOrder K] where
  entries : List (K × V)
  increasing : entries.Pairwise fun a b => a.1 < b.1

namespace KeyStore

variable {K V : Type} [LinearOrder K]

/-- Nothing is stored. -/
def empty : KeyStore K V := ⟨[], .nil⟩

/-- What is stored under a key. -/
def get (s : KeyStore K V) (k : K) : Option V := (s.entries.find? fun e => e.1 = k).map Prod.snd

/-- Store a value under a key, in place of what was there. -/
def set (s : KeyStore K V) (k : K) (v : V) : KeyStore K V where
  entries := s.entries.filter (fun e => e.1 < k) ++ (k, v) :: s.entries.filter fun e => k < e.1
  increasing := by
    rw [List.pairwise_append, List.pairwise_cons]
    refine ⟨s.increasing.filter _, ⟨fun e he => ?_, s.increasing.filter _⟩, ?_⟩
    · simpa using (List.mem_filter.1 he).2
    · intro a ha b hb
      have hak : a.1 < k := by simpa using (List.mem_filter.1 ha).2
      rcases List.mem_cons.1 hb with rfl | hb
      · exact hak
      · exact hak.trans (by simpa using (List.mem_filter.1 hb).2)

/-- Store nothing under a key. -/
def delete (s : KeyStore K V) (k : K) : KeyStore K V where
  entries := s.entries.filter fun e => e.1 ≠ k
  increasing := s.increasing.filter _

/-- The entries whose keys are of a kind, in the order of the keys. -/
def scan (s : KeyStore K V) (p : K → Prop) [DecidablePred p] : List (K × V) :=
  s.entries.filter fun e => p e.1

variable {s : KeyStore K V} {k k' : K} {v v' : V}

lemma get_eq_some_iff : s.get k = some v ↔ (k, v) ∈ s.entries := by
  rw [get, Option.map_eq_some_iff]
  constructor
  · rintro ⟨⟨k', v'⟩, hfind, rfl⟩
    obtain rfl : k' = k := by simpa using find?_some hfind
    exact mem_of_find?_eq_some hfind
  · intro h
    cases hfind : s.entries.find? fun e => e.1 = k with
    | none => exact absurd (find?_eq_none.1 hfind _ h) (by simp)
    | some e =>
      have hk : e.1 = k := by simpa using find?_some hfind
      have he := eq_of_increasing (f := Prod.fst) s.increasing (mem_of_find?_eq_some hfind) h hk
      exact ⟨e, rfl, by rw [he]⟩

@[simp] lemma get_empty (k : K) : (empty : KeyStore K V).get k = none := rfl

lemma get_set : (s.set k v).get k' = if k' = k then some v else s.get k' := by
  have hmem (v' : V) : (k', v') ∈ (s.set k v).entries ↔
      k' = k ∧ v' = v ∨ k' ≠ k ∧ (k', v') ∈ s.entries := by
    simp only [set, mem_append, mem_cons, mem_filter, decide_eq_true_eq, Prod.mk.injEq]
    rcases lt_trichotomy k' k with h | rfl | h
    · simp [h, h.ne, not_lt_of_gt h]
    · simp
    · simp [h, h.ne', not_lt_of_gt h]
  ext v'
  rw [get_eq_some_iff, hmem]
  split
  · rename_i h
    simp [h, eq_comm]
  · rename_i h
    simp [h, get_eq_some_iff]

lemma get_delete : (s.delete k).get k' = if k' = k then none else s.get k' := by
  ext v'
  rw [get_eq_some_iff, delete, mem_filter]
  split
  · rename_i h
    simp [h]
  · rename_i h
    simp [h, get_eq_some_iff]

/-- The store holds what a relation says it holds. -/
def Agrees (s : KeyStore K V) (R : K → V → Prop) : Prop := ∀ k v, s.get k = some v ↔ R k v

lemma agrees_empty : (empty : KeyStore K V).Agrees fun _ _ => False := fun _ _ => by simp

variable {R R' : K → V → Prop}

lemma Agrees.congr (h : s.Agrees R) (hR : ∀ k v, R k v ↔ R' k v) :
    s.Agrees R' := fun k v => (h k v).trans (hR k v)

lemma Agrees.set (h : s.Agrees R) (k : K) (v : V) :
    (s.set k v).Agrees fun k' v' => k' = k ∧ v' = v ∨ k' ≠ k ∧ R k' v' := by
  intro k' v'
  rw [get_set]
  by_cases hk : k' = k
  · simp [hk, eq_comm]
  · simp [hk, h k' v']

/-- Something is stored under a key that was free. -/
lemma Agrees.set_new (h : s.Agrees R) (hnew : ∀ v', ¬ R k v')
    (hR : ∀ k' v', R' k' v' ↔ k' = k ∧ v' = v ∨ R k' v') : (s.set k v).Agrees R' := by
  refine (h.set k v).congr fun k' v' => ?_
  rw [hR]
  refine or_congr_right ⟨fun h' => h'.2, fun h' => ⟨?_, h'⟩⟩
  rintro rfl
  exact hnew v' h'

lemma Agrees.delete (h : s.Agrees R) (k : K) :
    (s.delete k).Agrees fun k' v' => k' ≠ k ∧ R k' v' := by
  intro k' v'
  rw [get_delete]
  by_cases hk : k' = k
  · simp [hk]
  · simp [hk, h k' v']

variable {p : K → Prop}

lemma mem_scan [DecidablePred p] : (k, v) ∈ s.scan p ↔ s.get k = some v ∧ p k := by
  rw [scan, mem_filter, get_eq_some_iff, decide_eq_true_eq]

lemma scan_increasing [DecidablePred p] :
    (s.scan p).Pairwise fun a b => a.1 < b.1 := s.increasing.filter _

/-- What a scan returns when key order is the order of a time and an ordinal: the
records it finds, which are listed by ordinal, sorted by time. -/
lemma scan_eq_stableSort {α T : Type} [LinearOrder T] [DecidablePred p] {l : List α}
    {key : α → K} {val : α → V} {time : α → T} (ord : α → ℕ)
    (hl : l.Pairwise fun a b => ord a < ord b)
    (hkey : ∀ a ∈ l, ∀ b ∈ l, placeBy time ord a < placeBy time ord b → key a < key b)
    (hmem : ∀ k v, s.get k = some v ∧ p k ↔ ∃ a ∈ l, key a = k ∧ val a = v) :
    s.scan p = (stableSort time l).map fun a => (key a, val a) := by
  refine increasing_ext (f := Prod.fst) scan_increasing ?_ ?_
  · rw [pairwise_map]
    refine (stableSort_increasing time hl).imp_of_mem fun ha hb hab => ?_
    exact hkey _ (mem_stableSort.1 ha) _ (mem_stableSort.1 hb) hab
  · rintro ⟨k, v⟩
    rw [mem_scan, hmem, mem_map]
    simp only [mem_stableSort, Prod.mk.injEq]

end KeyStore

end Blkit
