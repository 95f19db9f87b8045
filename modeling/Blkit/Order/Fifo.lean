import Blkit.Order.Before
import Mathlib.Data.List.Perm.Subperm
import Mathlib.Logic.Function.Basic

/-!
# Topological sorting with a queue

Kahn's algorithm on an arbitrary type of keys: count for every key the keys it
waits for, queue those that wait for none, and let every key that leaves the
queue release the keys that wait for it.  Because the queue is first in, first
out, the output is not just some topological order, and what it is depends only
on the order of the initial keys and of each release list.  `Placed` says where
a key stands in that order.
-/

namespace Blkit.Fifo

open List

variable {κ : Type} [DecidableEq κ]

/-- The inner loop: every listed key waits for one key less, and joins the queue
when it waits for none. -/
def release : List κ → (κ → Int) × List κ → (κ → Int) × List κ
  | [], s => s
  | m :: ms, (indeg, queue) =>
    let indeg := Function.update indeg m (indeg m - 1)
    release ms (indeg, if indeg m = 0 then queue ++ [m] else queue)

/-- The outer loop, until the queue is empty (or the fuel is used up): the keys
in the order in which they leave the queue, and what is left of the queue. -/
def run (next : κ → List κ) : Nat → (κ → Int) × List κ → List κ → List κ × List κ
  | 0, s, out => (out, s.2)
  | _ + 1, (_, []), out => (out, [])
  | fuel + 1, (indeg, n :: queue), out =>
    run next fuel (release (next n) (indeg, queue)) (out ++ [n])

/-- The whole sort, over the keys in the order in which they are first looked at. -/
def sort (next : κ → List κ) (indeg : κ → Int) (keys : List κ) : List κ :=
  (run next keys.length (indeg, keys.filter (indeg · = 0)) []).1

/-- What the sort is given: the keys, and for each key the keys it waits for.
The release lists and the counters say the same thing. -/
structure Plan (κ : Type) [DecidableEq κ] where
  keys : List κ
  deps : κ → List κ
  next : κ → List κ
  indeg : κ → Int
  keys_nodup : keys.Nodup
  deps_nodup : ∀ m ∈ keys, (deps m).Nodup
  next_nodup : ∀ n, (next n).Nodup
  mem_next : ∀ n m, m ∈ next n ↔ m ∈ keys ∧ n ∈ deps m
  indeg_eq : ∀ m ∈ keys, indeg m = (deps m).length

namespace Plan

variable (P : Plan κ)

/-- The keys that wait for none. -/
def roots : List κ := P.keys.filter (P.indeg · = 0)

/-- Everything `m` waits for is in `done`. -/
def Ready (done : List κ) (m : κ) : Prop := ∀ d ∈ P.deps m, d ∈ done

instance (done : List κ) (m : κ) : Decidable (P.Ready done m) :=
  inferInstanceAs (Decidable (∀ d ∈ P.deps m, d ∈ done))

/-- The keys that join the queue when `n` leaves it after `done`. -/
def released (done : List κ) (n : κ) : List κ := (P.next n).filter (P.Ready (done ++ [n]))

/-- The order of keys. -/
def sorted : List κ := sort P.next P.indeg P.keys

variable {P}

lemma mem_roots {m : κ} : m ∈ P.roots ↔ m ∈ P.keys ∧ P.deps m = [] := by
  simp only [roots, mem_filter, decide_eq_true_eq]
  constructor
  · rintro ⟨hm, h⟩
    rw [P.indeg_eq m hm] at h
    exact ⟨hm, length_eq_zero_iff.1 (by omega)⟩
  · rintro ⟨hm, h⟩
    exact ⟨hm, by rw [P.indeg_eq m hm, h]; rfl⟩

/-- `l` comes before `b` in the queue: `b` is a root after the roots `l`, or `b`
joined the queue when `n` left it, and `l` is what the queue held up to then and
the keys `n` released before `b`. -/
inductive Placed (P : Plan κ) : List κ → κ → Prop
  | root {l b l'} (h : P.roots = l ++ b :: l') : Placed P l b
  | released {done n queue l b l'}
      (full : ∀ a, a ∈ done ++ n :: queue ↔ a ∈ P.keys ∧ P.Ready done a)
      (h : P.released done n = l ++ b :: l') : Placed P (done ++ n :: queue ++ l) b

/-- What holds whenever the outer loop is entered. -/
structure Inv (P : Plan κ) (indeg : κ → Int) (queue out : List κ) : Prop where
  nodup : (out ++ queue).Nodup
  indeg : ∀ m ∈ P.keys, indeg m = ((P.deps m).filter (· ∉ out)).length
  mem : ∀ m, m ∈ out ++ queue ↔ m ∈ P.keys ∧ P.Ready out m
  placed : ∀ l b l', out ++ queue = l ++ b :: l' → Placed P l b

end Plan

/-- The inner loop on a list without repetitions. -/
lemma release_eq (ms : List κ) (hms : ms.Nodup) (indeg : κ → Int) (queue : List κ) :
    release ms (indeg, queue) = (fun m => if m ∈ ms then indeg m - 1 else indeg m,
        queue ++ ms.filter (fun m => indeg m = 1)) := by
  induction ms generalizing indeg queue with
  | nil => simp [release]
  | cons m ms ih =>
    rw [nodup_cons] at hms
    rw [release, ih hms.2]
    have hcount : ∀ x ∈ ms, Function.update indeg m (indeg m - 1) x = indeg x := fun x hx =>
      Function.update_of_ne (by rintro rfl; exact hms.1 hx) _ _
    refine Prod.ext (funext fun x => ?_) ?_
    · by_cases hx : x = m
      · subst hx
        simp [hms.1]
      · simp [hx]
    · have hfilter : ms.filter (fun x => Function.update indeg m (indeg m - 1) x = 1) =
          ms.filter (fun x => indeg x = 1) :=
        filter_congr fun x hx => by rw [hcount x hx]
      simp only [hfilter, Function.update_self]
      by_cases hm : indeg m = 1
      · simp [hm]
      · have : indeg m - 1 ≠ 0 := by omega
        simp [hm, this]

namespace Plan

variable {P : Plan κ} {indeg : κ → Int} {queue out : List κ} {n : κ}

/-- Before any key has left the queue. -/
lemma inv_start (P : Plan κ) : P.Inv P.indeg P.roots [] where
  nodup := P.keys_nodup.filter _
  indeg m hm := by simp [P.indeg_eq m hm]
  mem m := by simp [mem_roots, Ready, eq_nil_iff_forall_not_mem]
  placed _ _ _ h := .root h

lemma Inv.head_not_mem (h : P.Inv indeg (n :: queue) out) : n ∉ out := fun hn =>
  (nodup_append.1 h.nodup).2.2 n hn n (by simp) rfl

/-- What a list still waits for, once `n` is done as well. -/
lemma filter_not_mem_snoc {l : List κ} (hl : l.Nodup) (out : List κ) (n : κ) :
    l.filter (· ∉ out ++ [n]) = (l.filter (· ∉ out)).erase n := by
  rw [(hl.filter _).erase_eq_filter, filter_filter]
  refine filter_congr fun d _ => ?_
  rw [Bool.eq_iff_iff]
  simp [not_or, and_comm]

/-- The counter of a key that waits for `n` reads one exactly when `n` is the last
key it waits for. -/
lemma Inv.indeg_eq_one (h : P.Inv indeg (n :: queue) out) {m : κ} (hm : m ∈ P.next n) :
    indeg m = 1 ↔ P.Ready (out ++ [n]) m := by
  obtain ⟨hkey, hdep⟩ := (P.mem_next n m).1 hm
  have hn : n ∈ (P.deps m).filter (· ∉ out) := by simp [hdep, h.head_not_mem]
  have hpos := length_pos_of_mem hn
  calc indeg m = 1
      ↔ ((P.deps m).filter (· ∉ out)).length - 1 = 0 := by rw [h.indeg m hkey]; omega
    _ ↔ ((P.deps m).filter (· ∉ out ++ [n])).length = 0 := by
        rw [filter_not_mem_snoc (P.deps_nodup m hkey), length_erase_of_mem hn]
    _ ↔ P.Ready (out ++ [n]) m := by
        rw [length_eq_zero_iff, filter_eq_nil_iff]
        simp only [decide_eq_true_eq, not_not, Ready]

lemma Inv.step (h : P.Inv indeg (n :: queue) out) :
    P.Inv (release (P.next n) (indeg, queue)).1 (release (P.next n) (indeg, queue)).2
      (out ++ [n]) := by
  have hn := h.head_not_mem
  have hrel : (P.next n).filter (fun m => indeg m = 1) = P.released out n :=
    filter_congr fun m hm => by simp [h.indeg_eq_one hm]
  have happ : (out ++ [n]) ++ (queue ++ P.released out n) =
      (out ++ n :: queue) ++ P.released out n := by simp
  rw [release_eq _ (P.next_nodup n), hrel]
  have hfresh : ∀ m ∈ P.released out n, m ∉ out ++ n :: queue := fun m hm hmem => by
    have hdep := ((P.mem_next n m).1 (mem_of_mem_filter hm)).2
    exact hn (((h.mem m).1 hmem).2 n hdep)
  constructor
  · rw [happ]
    exact List.Nodup.append h.nodup ((P.next_nodup n).filter _) fun m hm hm' => hfresh m hm' hm
  · intro m hm
    simp only [filter_not_mem_snoc (P.deps_nodup m hm), h.indeg m hm]
    by_cases hdep : n ∈ P.deps m
    · have hmem : n ∈ (P.deps m).filter (· ∉ out) := by simp [hdep, hn]
      have hpos := length_pos_of_mem hmem
      simp only [P.mem_next, hm, hdep, and_self, if_true, length_erase_of_mem hmem]
      omega
    · have hmem : n ∉ (P.deps m).filter (· ∉ out) := by simp [hdep]
      simp only [P.mem_next, hdep, and_false, if_false, erase_of_not_mem hmem]
  · intro m
    rw [happ, mem_append, h.mem]
    constructor
    · rintro (⟨hkey, hr⟩ | hm)
      · exact ⟨hkey, fun d hd => mem_append_left _ (hr d hd)⟩
      · simp only [released, mem_filter, P.mem_next, decide_eq_true_eq] at hm
        exact ⟨hm.1.1, hm.2⟩
    · rintro ⟨hkey, hr⟩
      by_cases hdep : n ∈ P.deps m
      · right
        simp [released, mem_filter, P.mem_next, hkey, hdep, hr]
      · refine .inl ⟨hkey, fun d hd => ?_⟩
        rcases mem_append.1 (hr d hd) with hd' | hd'
        · exact hd'
        · rw [mem_singleton] at hd'
          exact absurd (hd' ▸ hd) hdep
  · intro l b l' hsplit
    rw [happ] at hsplit
    rcases append_eq_append_iff.1 hsplit with ⟨u, rfl, hu⟩ | ⟨u, hu, hu'⟩
    · exact .released h.mem hu
    · cases u with
      | nil =>
        rw [append_nil] at hu
        subst hu
        have :=
          Placed.released (l := []) h.mem (show P.released out n = [] ++ b ::
            l' by simpa using hu'.symm)
        simpa using this
      | cons x u =>
        obtain ⟨rfl, rfl⟩ := cons.inj hu'
        exact h.placed l _ u hu

lemma Inv.run (fuel : Nat) : ∀ {indeg : κ → Int} {queue out : List κ}, P.Inv indeg queue out →
    ∃ indeg' queue', P.Inv indeg' queue' (run P.next fuel (indeg, queue) out).1 ∧
      (run P.next fuel (indeg, queue) out).2 = queue' ∧
      (queue' = [] ∨ (run P.next fuel (indeg, queue) out).1.length = out.length + fuel) := by
  induction fuel with
  | zero => exact fun h => ⟨_, _, h, rfl, .inr rfl⟩
  | succ fuel ih =>
    intro indeg queue out h
    cases queue with
    | nil => exact ⟨_, _, h, rfl, .inl rfl⟩
    | cons n queue =>
      obtain ⟨indeg', queue', hinv, hq, hlen⟩ := ih h.step
      refine ⟨indeg', queue', hinv, hq, hlen.imp_right fun hl => ?_⟩
      rw [Fifo.run, hl, length_append, length_singleton]
      omega

/-- The fuel is enough: the sort ends with an empty queue. -/
lemma inv_sorted (P : Plan κ) : ∃ indeg, P.Inv indeg [] P.sorted := by
  obtain ⟨indeg, queue, hinv, hq, hlen⟩ := Inv.run P.keys.length P.inv_start
  refine ⟨indeg, ?_⟩
  suffices queue = [] from this ▸ hinv
  refine hlen.elim id fun hl => ?_
  -- All keys are out, so none is left to be queued.
  have hsub : (P.sorted ++ queue) ⊆ P.keys := fun m hm => ((hinv.mem m).1 hm).1
  have hle := (subperm_of_subset hinv.nodup hsub).length_le
  rw [length_append] at hle
  have : P.sorted.length = P.keys.length := by
    rw [sorted, sort, ← roots, hl, length_nil, Nat.zero_add]
  exact length_eq_zero_iff.1 (by omega)

/-! ## The order -/

lemma sorted_nodup (P : Plan κ) : P.sorted.Nodup := by
  obtain ⟨_, h⟩ := P.inv_sorted
  simpa using h.nodup

lemma mem_sorted {m : κ} : m ∈ P.sorted ↔ m ∈ P.keys ∧ P.Ready P.sorted m := by
  obtain ⟨_, h⟩ := P.inv_sorted
  simpa using h.mem m

lemma placed_of_split {l l' : List κ} {b : κ} (h : P.sorted = l ++ b :: l') : P.Placed l b := by
  obtain ⟨_, hinv⟩ := P.inv_sorted
  exact hinv.placed l b l' (by simpa using h)

lemma Placed.ready {l : List κ} {b : κ} (h : P.Placed l b) : P.Ready l b := by
  cases h with
  | root h =>
    have hb : b ∈ P.roots := by simp [h]
    simp [Ready, (mem_roots.1 hb).2]
  | @released done n queue u _ _ _ h =>
    have hb : b ∈ P.released done n := by simp [h]
    intro d hd
    have := (of_decide_eq_true (mem_filter.1 hb).2) d hd
    simp only [mem_append, mem_cons] at this ⊢
    tauto

/-- Every key comes after the keys it waits for. -/
lemma deps_before {b d : κ} (hb : b ∈ P.sorted) (hd : d ∈ P.deps b) : Before P.sorted d b := by
  obtain ⟨l, l', h⟩ := append_of_mem hb
  exact .of_split h ((placed_of_split h).ready d hd)

/-- A key that waits only for keys that come before something `b` waits for comes
before `b`: it was in the queue by the time `b` joined it. -/
lemma before_of_deps_before {a b d' : κ} (ha : a ∈ P.keys) (hb : b ∈ P.sorted)
    (hd' : d' ∈ P.deps b) (h : ∀ d ∈ P.deps a, Before P.sorted d d') : Before P.sorted a b := by
  obtain ⟨l, l', hs⟩ := append_of_mem hb
  refine .of_split hs ?_
  cases placed_of_split hs with
  | root hr =>
    have hb : b ∈ P.roots := by simp [hr]
    simp [(mem_roots.1 hb).2] at hd'
  | @released done n queue u _ _ full hr =>
    have hb : b ∈ P.released done n := by simp [hr]
    have hd' := (of_decide_eq_true (mem_filter.1 hb).2) d' hd'
    have hsplit : P.sorted = done ++ n :: (queue ++ u ++ b :: l') := by simpa using hs
    -- Everything `a` waits for left the queue before `n` did.
    have hready : P.Ready done a := fun d hd => by
      rcases mem_append.1 hd' with hmem | hmem
      · exact (hsplit ▸ h d hd).mem_initial (hsplit ▸ P.sorted_nodup) hmem
      · rw [mem_singleton] at hmem
        subst hmem
        exact (h d hd).mem_of_split P.sorted_nodup hsplit
    exact mem_append_left _ ((full a).2 ⟨ha, hready⟩)

/-- When release lists keep the order of the keys: an earlier key that waits for
nothing later than `b` does comes before `b`. -/
lemma before_of_deps_le (hnext : ∀ n, P.next n = P.keys.filter (n ∈ P.deps ·)) {a b : κ}
    (hb : b ∈ P.sorted) (hab : Before P.keys a b)
    (h : ∀ d ∈ P.deps a, ∃ d' ∈ P.deps b, d = d' ∨ Before P.sorted d d') :
    Before P.sorted a b := by
  obtain ⟨l, l', hs⟩ := append_of_mem hb
  refine .of_split hs ?_
  cases placed_of_split hs with
  | root hr =>
    have hb : b ∈ P.roots := by simp [hr]
    have ha : P.deps a = [] := eq_nil_iff_forall_not_mem.2 fun d hd => by
      obtain ⟨d', hd', -⟩ := h d hd
      simp [(mem_roots.1 hb).2] at hd'
    have hroot : a ∈ P.roots := mem_roots.2 ⟨hab.mem_left, ha⟩
    have hab' : Before P.roots a b := hab.filter (mem_filter.1 hroot).2 (mem_filter.1 hb).2
    exact hab'.mem_of_split (P.keys_nodup.filter _) hr
  | @released done n queue u _ _ full hr =>
    have hb : b ∈ P.released done n := by simp [hr]
    have hbd := of_decide_eq_true (mem_filter.1 hb).2
    have hsplit : P.sorted = (done ++ [n]) ++ (queue ++ u ++ b :: l') := by simpa using hs
    have hready : P.Ready (done ++ [n]) a := fun d hd => by
      obtain ⟨d', hd', rfl | hdd⟩ := h d hd
      · exact hbd d hd'
      · exact (hsplit ▸ hdd).mem_initial (hsplit ▸ P.sorted_nodup) (hbd d' hd')
    by_cases hn : n ∈ P.deps a
    · -- `n` releases both, in the order of the keys.
      have ha : a ∈ P.released done n :=
        mem_filter.2 ⟨(P.mem_next n a).2 ⟨hab.mem_left, hn⟩, decide_eq_true hready⟩
      have hab' : Before (P.released done n) a b := by
        refine Before.filter ?_ (mem_filter.1 ha).2 (mem_filter.1 hb).2
        rw [hnext]
        have hbn := ((P.mem_next n b).1 (mem_filter.1 hb).1).2
        exact hab.filter (by simpa using hn) (by simpa using hbn)
      exact mem_append_right _
        (hab'.mem_of_split ((P.next_nodup n).filter _) hr)
    · refine mem_append_left _ ((full a).2 ⟨hab.mem_left, fun d hd => ?_⟩)
      rcases mem_append.1 (hready d hd) with hd' | hd'
      · exact hd'
      · rw [mem_singleton] at hd'
        exact absurd (hd' ▸ hd) hn

/-- Without a cycle, the sort returns every key. -/
lemma perm_keys (h : P.sorted.length = P.keys.length) : P.sorted.Perm P.keys :=
  (subperm_of_subset P.sorted_nodup fun _ hm => (mem_sorted.1 hm).1).perm_of_length_le
    (Nat.le_of_eq h.symm)

end Plan

end Blkit.Fifo
