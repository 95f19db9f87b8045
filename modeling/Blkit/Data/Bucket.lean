import Blkit.Order.Before
import Blkit.Order.Stable

/-!
# Stores that number their writes

A store with one entry for each key.  A write takes the next number, the revision of the
entry, and drops the entry the key had before; entries are listed in the order of their
revisions.  What a sequence of writes does to the order of the entries is said for two
keys at a time.
-/

namespace Blkit

open List

/-- A value under a key, with the number of the write that put it there. -/
structure BucketEntry (κ V : Type) where
  key : κ
  value : V
  revision : ℕ

/-- The entries in the order of their revisions, and the number of the last write. -/
structure Bucket (κ V : Type) where
  entries : List (BucketEntry κ V)
  last : ℕ
  increasing : entries.Pairwise fun a b => a.revision < b.revision
  le_last : ∀ e ∈ entries, e.revision ≤ last
  nodup : (entries.map BucketEntry.key).Nodup

namespace Bucket

variable {κ V : Type} [DecidableEq κ]

/-- Nothing has been written. -/
def empty : Bucket κ V := ⟨[], 0, .nil, nofun, .nil⟩

/-- The entry of a key. -/
def get (b : Bucket κ V) (k : κ) : Option (BucketEntry κ V) := b.entries.find? fun e => e.key = k

/-- The keys, in the order of the revisions. -/
def keys (b : Bucket κ V) : List κ := b.entries.map BucketEntry.key

/-- Write a value. -/
def put (b : Bucket κ V) (k : κ) (v : V) : Bucket κ V where
  entries := b.entries.filter (fun e => e.key ≠ k) ++ [⟨k, v, b.last + 1⟩]
  last := b.last + 1
  increasing := by
    rw [List.pairwise_append]
    refine ⟨b.increasing.filter _, List.pairwise_singleton _ _, fun e he e' he' => ?_⟩
    rw [List.mem_singleton.1 he']
    exact Nat.lt_succ_of_le (b.le_last e (List.mem_filter.1 he).1)
  le_last := by
    rw [List.forall_mem_append, List.forall_mem_singleton]
    exact ⟨fun e he => Nat.le_succ_of_le (b.le_last e (List.mem_filter.1 he).1), le_rfl⟩
  nodup := by
    rw [List.map_append, List.nodup_append]
    refine ⟨b.nodup.sublist (List.filter_sublist.map _), List.nodup_singleton _,
      fun k' hk' k'' hk'' => ?_⟩
    obtain ⟨e, he, rfl⟩ := List.mem_map.1 hk'
    rw [List.mem_singleton.1 hk'']
    exact of_decide_eq_true (List.mem_filter.1 he).2

variable {b : Bucket κ V} {k k' : κ} {v : V} {e : BucketEntry κ V}

lemma get_eq_some_iff : b.get k = some e ↔ e ∈ b.entries ∧ e.key = k := by
  constructor
  · intro h
    exact ⟨mem_of_find?_eq_some h, by simpa using find?_some h⟩
  · rintro ⟨he, rfl⟩
    rw [get]
    cases hfind : b.entries.find? fun e' => e'.key = e.key with
    | none => exact absurd (find?_eq_none.1 hfind e he) (by simp)
    | some e' =>
      have hkey : e'.key = e.key := by simpa using find?_some hfind
      rw [inj_on_of_nodup_map b.nodup (mem_of_find?_eq_some hfind) he hkey]

lemma mem_keys : k ∈ b.keys ↔ ∃ e, b.get k = some e := by
  simp only [keys, mem_map, get_eq_some_iff]

lemma get_put (b : Bucket κ V) (k k' : κ) (v : V) :
    (b.put k v).get k' = if k = k' then some ⟨k, v, b.last + 1⟩ else b.get k' := by
  split
  · rename_i h
    exact get_eq_some_iff.2 ⟨mem_append_right _ (mem_singleton_self _), h⟩
  · rename_i h
    ext e
    rw [get_eq_some_iff, get_eq_some_iff]
    refine and_congr_left fun he => ?_
    rw [put, mem_append, mem_filter, mem_singleton]
    constructor
    · rintro (⟨he, -⟩ | rfl)
      · exact he
      · exact absurd he h
    · exact fun hmem => .inl ⟨hmem, decide_eq_true (he ▸ Ne.symm h)⟩

@[simp] lemma get_put_self : (b.put k v).get k = some ⟨k, v, b.last + 1⟩ := by
  rw [get_put, if_pos rfl]

lemma get_put_of_ne (h : k ≠ k') : (b.put k v).get k' = b.get k' := by rw [get_put, if_neg h]

lemma mem_keys_put : k' ∈ (b.put k v).keys ↔ k' = k ∨ k' ∈ b.keys := by
  simp only [mem_keys, get_put]
  by_cases h : k = k'
  · simp [h]
  · simp [h, Ne.symm h]

/-! ## Several writes in a row -/

/-- Write the values under the keys, one after the other. -/
def putAll (b : Bucket κ V) (v : κ → V) (ks : List κ) : Bucket κ V :=
  ks.foldl (fun b k => b.put k (v k)) b

section PutAll

variable {val : κ → V} {ks : List κ}

lemma putAll_cons : b.putAll val (k :: ks) = (b.put k (val k)).putAll val ks := rfl

lemma putAll_congr {val' : κ → V} (h : ∀ k ∈ ks, val k = val' k) :
    b.putAll val ks = b.putAll val' ks := by
  induction ks generalizing b with
  | nil => rfl
  | cons k ks ih =>
    rw [forall_mem_cons] at h
    rw [putAll_cons, putAll_cons, h.1, ih h.2]

/-- The other keys keep their entries. -/
lemma get_putAll_of_not_mem (h : k ∉ ks) : (b.putAll val ks).get k = b.get k := by
  induction ks generalizing b with
  | nil => rfl
  | cons k' ks ih =>
    rw [mem_cons, not_or] at h
    rw [putAll_cons, ih h.2, get_put_of_ne (Ne.symm h.1)]

/-- A key that is written gets its value and a new revision. -/
lemma get_putAll_of_mem (h : k ∈ ks) :
    ∃ n, b.last < n ∧ (b.putAll val ks).get k = some ⟨k, val k, n⟩ := by
  induction ks generalizing b with
  | nil => cases h
  | cons k' ks ih =>
    rw [putAll_cons]
    by_cases hk : k ∈ ks
    · obtain ⟨n, hn, hget⟩ := ih (b := b.put k' (val k')) hk
      exact ⟨n, (Nat.lt_succ_self _).trans hn, hget⟩
    · obtain rfl : k = k' := (mem_cons.1 h).resolve_right hk
      exact ⟨b.last + 1, Nat.lt_succ_self _, (get_putAll_of_not_mem hk).trans get_put_self⟩

/-- Of two keys that are written, the one written first has the smaller revision. -/
lemma revision_lt_of_putAll (hks : ks.Nodup) {i j : κ} (hij : Before ks i j)
    {ei ej : BucketEntry κ V} (hi : (b.putAll val ks).get i = some ei)
    (hj : (b.putAll val ks).get j = some ej) : ei.revision < ej.revision := by
  induction ks generalizing b with
  | nil => cases hij
  | cons k ks ih =>
    rw [nodup_cons] at hks
    rw [putAll_cons] at hi hj
    rcases sublist_cons_iff.1 hij with hij | ⟨l, hl, hij⟩
    · exact ih hks.2 hij hi hj
    · obtain ⟨rfl, rfl⟩ := cons.inj hl
      have hmem : j ∈ ks := singleton_sublist.1 hij
      obtain ⟨n, hn, hget⟩ := @get_putAll_of_mem _ _ _ (b.put i (val i)) _ val _ hmem
      rw [get_putAll_of_not_mem hks.1, get_put_self, Option.some.injEq] at hi
      rw [hget, Option.some.injEq] at hj
      rw [← hi, ← hj]
      exact hn

end PutAll

/-! ## The order of the keys -/

omit [DecidableEq κ] in
lemma nodup_keys : b.keys.Nodup := b.nodup

/-- Of two keys, the one with the smaller revision is listed first. -/
lemma before_keys_iff {i j : κ} {ei ej : BucketEntry κ V} (hi : b.get i = some ei)
    (hj : b.get j = some ej) : Before b.keys i j ↔ ei.revision < ej.revision := by
  obtain ⟨hei, rfl⟩ := get_eq_some_iff.1 hi
  obtain ⟨hej, rfl⟩ := get_eq_some_iff.1 hj
  have hforward {e e' : BucketEntry κ V} (he : e ∈ b.entries) (he' : e' ∈ b.entries)
      (h : Before b.keys e.key e'.key) : e.revision < e'.revision := by
    have hpair := b.increasing.sublist (h.of_map b.nodup he he')
    exact rel_of_pairwise_cons hpair (mem_singleton_self _)
  constructor
  · exact hforward hei hej
  · intro hlt
    have hne : ei.key ≠ ej.key := fun h => by
      rw [inj_on_of_nodup_map b.nodup hei hej h] at hlt
      exact lt_irrefl _ hlt
    refine (Before.total (mem_map_of_mem hei) (mem_map_of_mem hej) hne).resolve_right ?_
    exact fun h => lt_asymm hlt (hforward hej hei h)

/-! ## The revision of a key -/

/-- The revision of the entry of a key; 0 when there is none. -/
def revisionOf (b : Bucket κ V) (k : κ) : ℕ := (b.get k).elim 0 BucketEntry.revision

lemma revisionOf_le_last : b.revisionOf k ≤ b.last := by
  rw [revisionOf]
  cases h : b.get k with
  | none => exact Nat.zero_le _
  | some e => exact b.le_last e (get_eq_some_iff.1 h).1

@[simp] lemma revisionOf_put_self : (b.put k v).revisionOf k = b.last + 1 := by
  rw [revisionOf, get_put_self, Option.elim_some]

lemma revisionOf_put_of_ne (h : k ≠ k') : (b.put k v).revisionOf k' = b.revisionOf k' := by
  rw [revisionOf, get_put_of_ne h, revisionOf]

lemma before_iff_revisionOf_lt {i j : κ} (hi : i ∈ b.keys) (hj : j ∈ b.keys) :
    Before b.keys i j ↔ b.revisionOf i < b.revisionOf j := by
  obtain ⟨ei, hi⟩ := mem_keys.1 hi
  obtain ⟨ej, hj⟩ := mem_keys.1 hj
  rw [before_keys_iff hi hj, revisionOf, revisionOf, hi, hj, Option.elim_some, Option.elim_some]

lemma revisionOf_inj {i j : κ} (hi : i ∈ b.keys) (hj : j ∈ b.keys)
    (h : b.revisionOf i = b.revisionOf j) : i = j := by
  by_contra hne
  rcases Before.total hi hj hne with hij | hij
  · exact ((before_iff_revisionOf_lt hi hj).1 hij).ne h
  · exact ((before_iff_revisionOf_lt hj hi).1 hij).ne h.symm

section PutAll

variable {val : κ → V} {ks : List κ}

lemma revisionOf_putAll_of_not_mem (h : k ∉ ks) :
    (b.putAll val ks).revisionOf k = b.revisionOf k := by
  rw [revisionOf, get_putAll_of_not_mem h, revisionOf]

lemma last_lt_revisionOf_putAll (h : k ∈ ks) : b.last < (b.putAll val ks).revisionOf k := by
  obtain ⟨n, hn, hget⟩ := @get_putAll_of_mem _ _ _ b _ val _ h
  rw [revisionOf, hget]
  exact hn

/-- When some of the keys are written again in the order they are listed in, two of them keep
their order unless only the first one is written. -/
lemma revisionOf_putAll_lt_iff (hks : ks.Sublist b.keys) {i j : κ} (hi : i ∈ b.keys)
    (hj : j ∈ b.keys) (hlt : b.revisionOf i < b.revisionOf j) :
    (b.putAll val ks).revisionOf i < (b.putAll val ks).revisionOf j ↔ (i ∈ ks → j ∈ ks) := by
  have hnodup : ks.Nodup := nodup_keys.sublist hks
  by_cases hik : i ∈ ks
  · by_cases hjk : j ∈ ks
    · refine iff_of_true ?_ fun _ => hjk
      have hbefore : Before ks i j := by
        refine (Before.total hik hjk (fun h => hlt.ne (h ▸ rfl))).resolve_right fun h => ?_
        exact lt_asymm hlt ((before_iff_revisionOf_lt hj hi).1 (h.mono hks))
      obtain ⟨n, -, hgeti⟩ := @get_putAll_of_mem _ _ _ b _ val _ hik
      obtain ⟨m, -, hgetj⟩ := @get_putAll_of_mem _ _ _ b _ val _ hjk
      have hrev := revision_lt_of_putAll hnodup hbefore hgeti hgetj
      rw [revisionOf, revisionOf, hgeti, hgetj]
      exact hrev
    · refine iff_of_false (fun h => ?_) (fun h => hjk (h hik))
      rw [revisionOf_putAll_of_not_mem hjk] at h
      exact absurd (h.trans_le revisionOf_le_last) (last_lt_revisionOf_putAll hik).asymm
  · refine iff_of_true ?_ fun h => absurd h hik
    rw [revisionOf_putAll_of_not_mem hik]
    by_cases hjk : j ∈ ks
    · exact revisionOf_le_last.trans_lt (last_lt_revisionOf_putAll hjk)
    · rwa [revisionOf_putAll_of_not_mem hjk]

end PutAll

end Bucket

end Blkit
