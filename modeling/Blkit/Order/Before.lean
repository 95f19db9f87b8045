import Mathlib.Data.List.Nodup

/-!
# Earlier in a list

`Before L a b` says that `a` occurs in `L` before an occurrence of `b`.  On lists
without repetitions it is a strict order, total on the members.
-/

namespace Blkit

open List

variable {κ : Type}

/-- `a` occurs in the list before `b`. -/
def Before (L : List κ) (a b : κ) : Prop := [a, b].Sublist L

namespace Before

variable {L L' l l' : List κ} {a b c : κ}

lemma iff_split : Before L a b ↔ ∃ l l', L = l ++ b :: l' ∧ a ∈ l := by
  constructor
  · intro h
    obtain ⟨l₁, l₂, rfl, ha, hb⟩ := cons_sublist_iff.1 h
    obtain ⟨u, v, rfl⟩ := append_of_mem (singleton_sublist.1 hb)
    exact ⟨l₁ ++ u, v, by simp, mem_append_left _ ha⟩
  · rintro ⟨l, l', rfl, ha⟩
    exact (singleton_sublist.2 ha).append (singleton_sublist.2 (by simp))

lemma of_split (h : L = l ++ b :: l') (ha : a ∈ l) : Before L a b := iff_split.2 ⟨l, l', h, ha⟩

lemma mem_left (h : Before L a b) : a ∈ L := h.subset (by simp)

lemma mono (h : Before L a b) (hL : L.Sublist L') : Before L' a b := h.trans hL

lemma filter (h : Before L a b) {p : κ → Bool} (ha : p a) (hb : p b) : Before (L.filter p) a b := by
  have := List.Sublist.filter p h
  rwa [filter_cons_of_pos ha, filter_cons_of_pos hb] at this

/-- In a list without repetitions, what comes before `b` is what stands left of it. -/
lemma mem_of_split (h : Before L a b) (hL : L.Nodup) (hs : L = l ++ b :: l') : a ∈ l := by
  obtain ⟨u, u', hu, ha⟩ := iff_split.1 h
  subst hs
  rcases append_eq_append_iff.1 hu with ⟨w, rfl, hw⟩ | ⟨w, rfl, hw⟩
  · cases w with
    | nil => simpa using ha
    | cons x w =>
      obtain ⟨rfl, rfl⟩ := cons.inj hw
      simp [nodup_append] at hL
  · exact mem_append_left _ ha

lemma irrefl (hL : L.Nodup) : ¬ Before L a a := by
  intro h
  obtain ⟨l, l', rfl, ha⟩ := iff_split.1 h
  exact (nodup_append.1 hL).2.2 a ha a (by simp) rfl

lemma trans (hL : L.Nodup) (h : Before L a b) (h' : Before L b c) : Before L a c := by
  obtain ⟨l, l', rfl, hb⟩ := iff_split.1 h'
  obtain ⟨u, u', rfl⟩ := append_of_mem hb
  have ha := h.mem_of_split hL (show _ = u ++ b :: (u' ++ c :: l') by simp)
  exact of_split rfl (mem_append_left _ ha)

lemma asymm (hL : L.Nodup) (h : Before L a b) : ¬ Before L b a := fun h' =>
  irrefl hL (trans hL h h')

lemma total (ha : a ∈ L) (hb : b ∈ L) (hne : a ≠ b) : Before L a b ∨ Before L b a := by
  obtain ⟨l, l', rfl⟩ := append_of_mem hb
  rcases mem_append.1 ha with h | h
  · exact .inl (of_split rfl h)
  · rcases mem_cons.1 h with rfl | h
    · exact absurd rfl hne
    · obtain ⟨u, u', rfl⟩ := append_of_mem h
      exact .inr (of_split (show _ = (l ++ b :: u) ++ a :: u' by simp) (by simp))

/-- Through a map that tells the members apart. -/
lemma of_map {κ' : Type} {f : κ → κ'} (h : Before (L.map f) (f a) (f b))
    (hL : (L.map f).Nodup) (ha : a ∈ L) (hb : b ∈ L) : Before L a b := by
  have hne : a ≠ b := by
    rintro rfl
    exact irrefl hL h
  refine (total ha hb hne).resolve_right fun h' => asymm hL h ?_
  exact List.Sublist.map f h'

/-- A prefix contains whatever comes before one of its members. -/
lemma mem_initial (h : Before (l ++ l') a b) (hL : (l ++ l').Nodup) (hb : b ∈ l) : a ∈ l := by
  obtain ⟨u, u', rfl⟩ := append_of_mem hb
  have := h.mem_of_split hL (show _ = u ++ b :: (u' ++ l') by simp)
  exact mem_append_left _ this

end Before

end Blkit
