import Blkit.Order.Fifo
import Mathlib.Data.Fintype.Card
import Mathlib.Data.Fintype.EquivFin
import Mathlib.Data.Fintype.Sets
import Mathlib.Data.List.Chain
import Mathlib.Data.List.Induction

/-!
# Which keys a queue always sorts before which

The place of a key in a first in, first out sort depends on the order in which the
keys are given, but the place of its *level* does not.  A key has a chain of length
`k` below it when `k` keys in a row wait for one another, the first of them being
waited for by the key.  If `b` has a longer chain below it than `a`, the sort puts
`a` before `b` for every order of the keys; if not, it puts `b` before `a` for
some order.
-/

namespace Blkit.Fifo

open List

variable {κ : Type}

/-- There is a chain of `k` keys below `x`. -/
def Chain (deps : κ → List κ) : Nat → κ → Prop
  | 0, _ => True
  | k + 1, x => ∃ d ∈ deps x, Chain deps k d

/-- `b` has a longer chain below it than `a`. -/
def Deeper (deps : κ → List κ) (b a : κ) : Prop := ∃ k, Chain deps k b ∧ ¬ Chain deps k a

section Chain

variable {deps : κ → List κ}

lemma Chain.of_succ {k : Nat} {x : κ} (h : Chain deps (k + 1) x) : Chain deps k x := by
  induction k generalizing x with
  | zero => trivial
  | succ k ih =>
    obtain ⟨d, hd, h⟩ := h
    exact ⟨d, hd, ih h⟩

lemma Chain.mono {k k' : Nat} (hk : k ≤ k') {x : κ} (h : Chain deps k' x) : Chain deps k x := by
  induction hk with
  | refl => exact h
  | step _ ih => exact ih h.of_succ

/-- A chain, written out. -/
lemma Chain.exists_path {k : Nat} {x : κ} (h : Chain deps k x) :
    ∃ l, l.length = k ∧ (x :: l).IsChain (fun a b => b ∈ deps a) := by
  induction k generalizing x with
  | zero => exact ⟨[], rfl, .singleton x⟩
  | succ k ih =>
    obtain ⟨d, hd, h⟩ := h
    obtain ⟨l, hl, hp⟩ := ih h
    exact ⟨d :: l, by simp [hl], .cons_cons hd hp⟩

lemma Chain.of_path {x : κ} {l : List κ} (h : (x :: l).IsChain (fun a b => b ∈ deps a)) :
    Chain deps l.length x := by
  induction l generalizing x with
  | nil => trivial
  | cons y l ih =>
    rw [isChain_cons_cons] at h
    exact ⟨y, h.1, ih h.2⟩

end Chain

namespace Plan

variable [DecidableEq κ] {P : Plan κ}

/-- There is no cycle: every key is sorted. -/
def Complete (P : Plan κ) : Prop := ∀ m ∈ P.keys, m ∈ P.sorted

lemma complete_iff_length : P.Complete ↔ P.sorted.length = P.keys.length := by
  constructor
  · intro h
    have hperm : P.sorted.Perm P.keys := (perm_ext_iff_of_nodup P.sorted_nodup P.keys_nodup).2
      fun m => ⟨fun hm => (mem_sorted.1 hm).1, h m⟩
    exact hperm.length_eq
  · exact fun h m hm => (perm_keys h).mem_iff.2 hm

/-- A key waits for another one. -/
def Awaits (P : Plan κ) (d m : κ) : Prop := m ∈ P.keys ∧ d ∈ P.deps m

/-- Every key is sorted if and only if none waits for itself, directly or not. -/
lemma complete_iff_acyclic (hdeps : ∀ m ∈ P.keys, ∀ d ∈ P.deps m, d ∈ P.keys) :
    P.Complete ↔ ∀ k, ¬ Relation.TransGen P.Awaits k k := by
  constructor
  · intro h k hk
    have hbefore {d m : κ} (hdm : Relation.TransGen P.Awaits d m) : Before P.sorted d m := by
      induction hdm with
      | single hdm => exact deps_before (h _ hdm.1) hdm.2
      | tail _ hdm ih => exact ih.trans P.sorted_nodup (deps_before (h _ hdm.1) hdm.2)
    exact Before.irrefl P.sorted_nodup (hbefore hk)
  · -- There are finitely many keys, so what waits can be reached by induction.
    intro h
    let r : { k // k ∈ P.keys } → { k // k ∈ P.keys } → Prop :=
      Relation.TransGen fun d m => P.Awaits d.1 m.1
    have : Std.Irrefl r := ⟨fun k hk => h k.1 (hk.lift Subtype.val fun _ _ h => h)⟩
    have hsorted (k : { k // k ∈ P.keys }) : k.1 ∈ P.sorted := by
      induction k using (Finite.wellFounded_of_trans_of_irrefl r).induction with
      | _ k ih =>
        exact mem_sorted.2 ⟨k.2, fun d hd => ih ⟨d, hdeps k.1 k.2 d hd⟩ (.single ⟨k.2, hd⟩)⟩
    exact fun m hm => hsorted ⟨m, hm⟩

/-- Whether there is a cycle does not depend on the order of the keys. -/
lemma Complete.of_mem_iff {Q : Plan κ} (h : P.Complete) (hkeys : ∀ m, m ∈ Q.keys ↔ m ∈ P.keys)
    (hdeps : ∀ m ∈ P.keys, ∀ d ∈ Q.deps m, d ∈ P.deps m) : Q.Complete := by
  -- Along the order that is known, every key is ready when its turn comes.
  have hpre : ∀ l l', P.sorted = l ++ l' → ∀ m ∈ l, m ∈ Q.sorted := by
    intro l
    induction l using reverseRecOn with
    | nil => simp
    | append_singleton l n ih =>
      intro l' hs m hm
      have ih := ih (n :: l') (by simpa using hs)
      rcases mem_append.1 hm with hm | hm
      · exact ih m hm
      · obtain rfl := mem_singleton.1 hm
        have hsplit : P.sorted = l ++ m :: l' := by simpa using hs
        have hm : m ∈ P.sorted := by simp [hsplit]
        have hkey := (mem_sorted.1 hm).1
        refine mem_sorted.2 ⟨(hkeys m).2 hkey, fun d hd => ih d ?_⟩
        exact (placed_of_split hsplit).ready d (hdeps m hkey d hd)
  exact fun m hm => hpre P.sorted [] (by simp) m (h m ((hkeys m).1 hm))

lemma Complete.deps_mem (h : P.Complete) {m d : κ} (hm : m ∈ P.keys) (hd : d ∈ P.deps m) :
    d ∈ P.keys :=
  (mem_sorted.1 (deps_before (h m hm) hd).mem_left).1

/-- A key with a longer chain below it comes later, in whatever order the keys
are given. -/
lemma Complete.before_of_deeper (h : P.Complete) {a b : κ} (ha : a ∈ P.keys) (hb : b ∈ P.keys)
    (hdeep : Deeper P.deps b a) : Before P.sorted a b := by
  obtain ⟨k, hkb, hka⟩ := hdeep
  induction k generalizing a b with
  | zero => exact absurd trivial hka
  | succ k ih =>
    obtain ⟨d', hd', hk⟩ := hkb
    refine before_of_deps_before ha (h b hb) hd' fun d hd => ?_
    exact ih (h.deps_mem ha hd) (h.deps_mem hb hd') hk fun hk => hka ⟨d, hd, hk⟩

/-- The chain below a key is no longer than what comes before the key. -/
lemma not_chain_of_split {l l' : List κ} {a : κ} (hs : P.sorted = l ++ a :: l') {k : Nat}
    (hk : l.length < k) : ¬ Chain P.deps k a := by
  induction k generalizing l l' a with
  | zero => omega
  | succ k ih =>
    rintro ⟨d, hd, hc⟩
    obtain ⟨u, v, rfl⟩ := append_of_mem ((placed_of_split hs).ready d hd)
    refine ih (show P.sorted = u ++ d :: (v ++ a :: l') by simpa using hs) ?_ hc
    rw [length_append, length_cons] at hk
    omega

/-- Every key has a longest chain below it. -/
lemma Complete.exists_level (h : P.Complete) {a : κ} (ha : a ∈ P.keys) :
    ∃ k, Chain P.deps k a ∧ ¬ Chain P.deps (k + 1) a := by
  obtain ⟨l, l', hs⟩ := append_of_mem (h a ha)
  by_contra hall
  push Not at hall
  have hchain : ∀ k, Chain P.deps k a := fun k => by
    induction k with
    | zero => trivial
    | succ k ih => exact hall k ih
  exact not_chain_of_split hs (Nat.lt_succ_self _) (hchain _)

/-- A key comes after all keys of a chain below it. -/
lemma Complete.before_of_path (h : P.Complete) {x : κ} {l : List κ} (hx : x ∈ P.keys)
    (hp : (x :: l).IsChain (fun a b => b ∈ P.deps a)) {d : κ} (hd : d ∈ l) :
    Before P.sorted d x := by
  induction l generalizing x with
  | nil => cases hd
  | cons y l ih =>
    rw [isChain_cons_cons] at hp
    have hyx := deps_before (h x hx) hp.1
    rcases mem_cons.1 hd with rfl | hd
    · exact hyx
    · exact (ih (h.deps_mem hx hp.1) hp.2 hd).trans P.sorted_nodup hyx

section Last

variable (hnext : ∀ n, P.next n = P.keys.filter (n ∈ P.deps ·)) (hP : P.Complete)
  {c : List κ} (hc : c.IsChain (fun a b => b ∈ P.deps a)) (hkeys : ∀ x ∈ c, x ∈ P.keys)
  (hlast : ∀ a ∈ P.keys, a ∉ c → ∀ x ∈ c, Before P.keys a x)

include hnext hP hc hkeys hlast in
/-- When the keys of a chain are given last, each of them is the last of its level. -/
lemma before_of_last {u l : List κ} {x : κ} (hsplit : c = u ++ x :: l) {a : κ}
    (ha : a ∈ P.keys) (hac : a ∉ c) (hlevel : ¬ Chain P.deps (l.length + 1) a) :
    Before P.sorted a x := by
  have hx : x ∈ c := by simp [hsplit]
  have hpath : (x :: l).IsChain (fun a b => b ∈ P.deps a) := hc.suffix ⟨u, hsplit.symm⟩
  induction l generalizing u x a with
  | nil =>
    refine before_of_deps_le hnext (hP x (hkeys x hx)) (hlast a ha hac x hx) fun d hd => ?_
    exact absurd ⟨d, hd, trivial⟩ hlevel
  | cons y l ih =>
    have hsplit' : c = (u ++ [x]) ++ y :: l := by simpa using hsplit
    have hy : y ∈ c := by simp [hsplit']
    rw [isChain_cons_cons] at hpath
    refine before_of_deps_le hnext (hP x (hkeys x hx)) (hlast a ha hac x hx) fun d hd => ?_
    refine ⟨y, hpath.1, ?_⟩
    have hdl : ¬ Chain P.deps (l.length + 1) d := fun h => hlevel ⟨d, hd, h⟩
    by_cases hdc : d ∈ c
    · rw [hsplit', mem_append, mem_cons] at hdc
      rcases hdc with hdc | rfl | hdc
      · -- The keys further up the chain are of a higher level than `d`.
        obtain ⟨v, w, hv⟩ := append_of_mem hdc
        have hdp : (d :: (w ++ y :: l)).IsChain (fun a b => b ∈ P.deps a) :=
          hc.suffix ⟨v, by simp [hsplit', hv]⟩
        refine absurd ((Chain.of_path hdp).mono ?_) hdl
        simp
      · exact .inl rfl
      · exact .inr (hP.before_of_path (hkeys y hy) hpath.2 hdc)
    · exact .inr (ih hsplit' (hP.deps_mem ha hd) hdc hdl hy hpath.2)

end Last

/-- A key that is not deeper than `a` comes after `a` for some order of the keys. -/
lemma Complete.exists_order (h : P.Complete) {a b : κ} (ha : a ∈ P.keys) (hb : b ∈ P.keys)
    (hne : a ≠ b) (hdeep : ¬ Deeper P.deps a b) :
    ∃ keys : List κ, keys.Perm P.keys ∧ ∀ Q : Plan κ, Q.keys = keys → Q.deps = P.deps →
      (∀ n, Q.next n = Q.keys.filter (n ∈ Q.deps ·)) → Q.Complete → Before Q.sorted a b := by
  obtain ⟨k, hka, hka'⟩ := h.exists_level ha
  have hkb : Chain P.deps k b := by
    by_contra hkb
    exact hdeep ⟨k, hka, hkb⟩
  obtain ⟨l, rfl, hp⟩ := hkb.exists_path
  refine ⟨P.keys.filter (· ∉ b :: l) ++ P.keys.filter (¬ · ∉ b :: l), ?_, ?_⟩
  · simpa using filter_append_perm (fun x => decide (x ∉ b :: l)) P.keys
  intro Q hQ hdeps hnext hcomplete
  have hmem : ∀ m, m ∈ Q.keys ↔ m ∈ P.keys := fun m => by
    rw [hQ, mem_append, mem_filter, mem_filter]
    by_cases hm : m ∈ b :: l <;> simp [hm]
  rw [← hdeps] at hp hka'
  have hkeys : ∀ x ∈ b :: l, x ∈ Q.keys := by
    rintro x (_ | ⟨_, hx⟩)
    · exact (hmem b).2 hb
    · exact (mem_sorted.1 (hcomplete.before_of_path ((hmem b).2 hb) hp hx).mem_left).1
  by_cases hal : a ∈ b :: l
  · exact hcomplete.before_of_path ((hmem b).2 hb) hp ((mem_cons.1 hal).resolve_left hne)
  · refine before_of_last hnext hcomplete hp hkeys ?_ (u := []) rfl ((hmem a).2 ha) hal hka'
    intro a ha hal x hx
    obtain ⟨v, w, hv⟩ := append_of_mem
      (show x ∈ P.keys.filter (¬ · ∉ b :: l) from
        mem_filter.2 ⟨(hmem x).1 (hkeys x hx), by simpa using mem_cons.1 hx⟩)
    refine .of_split (show Q.keys = (P.keys.filter (· ∉ b :: l) ++ v) ++ x :: w by
      rw [hQ, hv, append_assoc]) ?_
    exact mem_append_left _ (mem_filter.2 ⟨(hmem a).1 ha, by simpa using hal⟩)

end Plan

end Blkit.Fifo
