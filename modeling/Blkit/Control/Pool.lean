import Blkit.Control.Machine
import Blkit.Control.Prog
import Mathlib.Data.List.Forall2
import Mathlib.Logic.Function.Basic

/-!
# Programs that run at the same time

A system is a service and calls, each with a program that it runs.  Any number of calls are
under way at the same time; one step carries out the next command of one of them, or lets it
fail.  A failed command was not carried out, or it was and its reply is lost.

If every program obeys a protocol, a call under way is known by its state in the protocol,
and an invariant of the service and of these states holds in every run if each command that
the protocol allows keeps it (`Keeper.always`).
-/

namespace Blkit

open Prog List

/-- A service with states `S`.  What a command does may depend on a choice: the time, or what
the service is free to do; it is refused if the choice is none the service has. -/
structure Service (S C : Type) (R : C → Type) (H : Type) where
  run : S → (c : C) → H → Option (S × R c)
  /-- the command may fail -/
  fallible : C → Bool

/-- A call under way, with what is left of its program, or with its result. -/
structure Thread (K C : Type) (R : C → Type) (α : Type) where
  key : K
  rest : Prog C R α

/-- The service and all calls that were ever made, in their order. -/
structure Pool (S K C : Type) (R : C → Type) (α : Type) where
  shared : S
  threads : List (Thread K C R α)

inductive PoolAction (K H : Type) where
  | call (k : K)
  /-- carry out the next command of a call; its reply may be lost -/
  | step (i : ℕ) (h : H) (heard : Bool)
  /-- the next command of a call fails -/
  | fail (i : ℕ)

/-- A service, the program of each call, and which calls can be made. -/
structure System (S K C : Type) (R : C → Type) (H α : Type) where
  service : Service S C R H
  body : K → Prog C R α
  admits : Pool S K C R α → K → Bool

variable {S K C H α : Type} {R : C → Type}

namespace Pool

variable (w : Pool S K C R α)

/-- A call goes on with a reply. -/
def resume (s : S) (i : ℕ) (k : K) (p : Prog C R α) : Pool S K C R α := ⟨s, w.threads.set i ⟨k, p⟩⟩

/-- The command that a call issues next. -/
def next (i : ℕ) : Option C := w.threads[i]?.bind fun t => t.rest.next

/-- A call with this key has returned this result. -/
def Returned (k : K) (a : α) : Prop := ⟨k, .done a⟩ ∈ w.threads

/-- A call with such a key is under way. -/
def Busy (P : K → Prop) : Prop := ∃ t ∈ w.threads, P t.key ∧ t.rest.next ≠ none

end Pool

namespace System

variable (M : System S K C R H α)

def step (w : Pool S K C R α) : PoolAction K H → Option (Pool S K C R α)
  | .call k =>
    if M.admits w k then some { w with threads := w.threads ++ [⟨k, M.body k⟩] } else none
  | .step i h heard =>
    match w.threads[i]? with
    | some ⟨k, .ask c p⟩ =>
      if heard || M.service.fallible c then
        (M.service.run w.shared c h).map fun (s, r) =>
          w.resume s i k (p (if heard then some r else none))
      else none
    | _ => none
  | .fail i =>
    match w.threads[i]? with
    | some ⟨k, .ask c p⟩ =>
      if M.service.fallible c then some (w.resume w.shared i k (p none)) else none
    | _ => none

def machine : Machine (Pool S K C R α) (PoolAction K H) := ⟨M.step⟩

/-- All that an action can do. -/
inductive Step (w : Pool S K C R α) : PoolAction K H → Pool S K C R α → Prop
  | call (k : K) (hk : M.admits w k = true) : Step w (.call k)
      { w with threads := w.threads ++ [⟨k, M.body k⟩] }
  | step (i : ℕ) (h : H) (heard : Bool) (k : K) (c : C) (p : Option (R c) → Prog C R α)
      (s : S) (r : R c)
      (hi : w.threads[i]? = some ⟨k, .ask c p⟩) (hheard : heard = true ∨
        M.service.fallible c = true)
      (hrun : M.service.run w.shared c h = some (s, r)) :
    Step w (.step i h heard) (w.resume s i k (p (if heard then some r else none)))
  | fail (i : ℕ) (k : K) (c : C) (p : Option (R c) → Prog C R α)
      (hi : w.threads[i]? = some ⟨k, .ask c p⟩)
      (hc : M.service.fallible c = true) : Step w (.fail i) (w.resume w.shared i k (p none))

variable {M}

lemma Step.of_step {w w' : Pool S K C R α} {a : PoolAction K H} (h : M.machine.step w a = some w') :
    M.Step w a w' := by
  cases a with
  | call k =>
    obtain ⟨hk, h⟩ := Option.ite_none_right_eq_some.1 h
    cases h
    exact .call k hk
  | step i ch heard =>
    have h : M.step w (.step i ch heard) = some w' := h
    rw [System.step] at h
    split at h
    · rename_i k c p hi
      obtain ⟨hheard, h⟩ := Option.ite_none_right_eq_some.1 h
      obtain ⟨⟨s, r⟩, hrun, rfl⟩ := Option.map_eq_some_iff.1 h
      exact .step i ch heard k c p s r hi (Bool.or_eq_true_iff.1 hheard) hrun
    · cases h
  | fail i =>
    have h : M.step w (.fail i) = some w' := h
    rw [System.step] at h
    split at h
    · rename_i k c p hi
      obtain ⟨hc, h⟩ := Option.ite_none_right_eq_some.1 h
      cases h
      exact .fail i k c p hi hc
    · cases h

end System

/-! ## What is known of calls -/

/-- Calls, each with its state in a protocol while it is under way, and then with its result. -/
abbrev Ledger (K Q α : Type) := List (K × (Q ⊕ α))

namespace Ledger

variable {Q : Type} (q₀ : Q) {xs : Ledger K Q α} {i j : ℕ} {k : K} {q : Q} {z z' : Q ⊕ α}

/-- The state of a call; one that has returned is in `q₀`. -/
def stateAt (xs : Ledger K Q α) (i : ℕ) : Q :=
  match xs[i]? with
  | some (_, .inl q) => q
  | _ => q₀

variable {q₀}

lemma exists_of_stateAt (h : xs.stateAt q₀ i = q) (hq : q ≠ q₀) :
    ∃ k, xs[i]? = some (k, .inl q) := by
  rw [stateAt] at h
  split at h
  · rename_i k q' hi
    exact ⟨k, h ▸ hi⟩
  · exact absurd h.symm hq

lemma stateAt_eq (hi : xs[i]? = some (k, .inl q)) : xs.stateAt q₀ i = q := by rw [stateAt, hi]

lemma stateAt_set (hi : i < xs.length) :
    stateAt q₀ (xs.set i (k, z)) = Function.update (xs.stateAt q₀) i
      (z.elim (fun q => q) fun _ => q₀) := by
  funext j
  rw [stateAt, getElem?_set, Function.update_apply, stateAt]
  by_cases hij : i = j
  · rw [if_pos hij, if_pos hi, if_pos hij.symm]
    cases z <;> rfl
  · rw [if_neg hij, if_neg (Ne.symm hij)]

lemma stateAt_append : stateAt q₀ (xs ++ [(k, .inl q)]) =
    Function.update (xs.stateAt q₀) xs.length q := by
  funext j
  rw [stateAt, Function.update_apply, stateAt]
  rcases Nat.lt_trichotomy j xs.length with hlt | rfl | hgt
  · rw [getElem?_append_left hlt, if_neg (Nat.ne_of_lt hlt)]
  · rw [getElem?_concat_length, if_pos rfl]
  · rw [if_neg (Nat.ne_of_gt hgt), getElem?_eq_none (Nat.le_of_lt hgt), getElem?_eq_none]
    rw [length_append]
    exact hgt

/-- The calls. -/
def keys (xs : Ledger K Q α) : List K := xs.map Prod.fst

lemma mem_keys (h : xs[i]? = some (k, z)) : k ∈ xs.keys := mem_map.2 ⟨_, mem_of_getElem? h, rfl⟩

lemma keys_set (h : xs[i]? = some (k, z)) : keys (xs.set i (k, z')) = xs.keys := by
  rw [keys, map_set]
  refine ext_getElem? fun j => ?_
  rw [getElem?_set]
  split
  · rename_i hij
    subst hij
    rw [if_pos (by rw [List.length_map]; exact (List.getElem?_eq_some_iff.1 h).1),
      keys, List.getElem?_map, h]
    rfl
  · rfl

/-- What is counted over all calls, when one of them changes. -/
lemma count_flatMap_set {β : Type} [DecidableEq β] (f : K × (Q ⊕ α) → List β) {x : K × (Q ⊕ α)}
    (h : xs[i]? = some x) (y : K × (Q ⊕ α)) (b : β) :
    ((xs.set i y).flatMap f).count b + (f x).count b =
      (xs.flatMap f).count b + (f y).count b := by
  induction xs generalizing i with
  | nil => cases h
  | cons z xs ih =>
    cases i with
    | zero =>
      cases h
      simp only [set_cons_zero, flatMap_cons, count_append]
      omega
    | succ i =>
      have hrest := ih h
      simp only [set_cons_succ, flatMap_cons, count_append]
      omega

end Ledger

/-! ## Invariants by protocol -/

/-- A protocol that the program of every call obeys. -/
structure Discipline (M : System S K C R H α) (Q : Type) where
  rules : Protocol Q C R
  start : K → Q
  post : K → Q → α → Prop
  obeys : ∀ k, Obeys rules (post k) (start k) (M.body k)

namespace Discipline

variable {M : System S K C R H α} {Q : Type} (L : Discipline M Q)

/-- What is known of a call: its state in the protocol while it is under way, then its result. -/
def Tracks (x : K × (Q ⊕ α)) (t : Thread K C R α) : Prop :=
  x.1 = t.key ∧ match x.2, t.rest with
    | .inl q, .ask c p => Obeys L.rules (L.post x.1) q (.ask c p)
    | .inr a, .done b => a = b
    | _, _ => False

/-- The same, of all calls. -/
def Tracked (xs : List (K × (Q ⊕ α))) (w : Pool S K C R α) : Prop :=
  ∀ i : ℕ, Option.Rel L.Tracks xs[i]? w.threads[i]?

/-- What an invariant has to stand: calls, results, and the commands that the protocol
allows, where actions are taken as `P` says. -/
structure Keeper (P : Pool S K C R α → PoolAction K H → Prop) (I : S → List (K × (Q ⊕ α)) → Prop) :
    Prop where
  call : ∀ w xs k, L.Tracked xs w → P w (.call k) → M.admits w k = true → I w.shared xs →
    I w.shared (xs ++ [(k, .inl (L.start k))])
  ret : ∀ (s : S) (xs : List (K × (Q ⊕ α))) (i : ℕ) k q a, xs[i]? = some (k, .inl q) →
    L.post k q a → I s xs →
    I s (xs.set i (k, .inr a))
  step : ∀ w xs (i : ℕ) h heard k c q s r q', L.Tracked xs w → P w (.step i h heard) →
    (∃ p, w.threads[i]? = some ⟨k, .ask c p⟩) → xs[i]? = some (k, .inl q) →
    (heard = true ∨ M.service.fallible c = true) →
    M.service.run w.shared c h = some (s, r) → L.rules q c (if heard then some r else none) q' →
    I w.shared xs →
    I s (xs.set i (k, .inl q'))
  fail : ∀ w xs (i : ℕ) k c q q', L.Tracked xs w → P w (.fail i) →
    (∃ p, w.threads[i]? = some ⟨k, .ask c p⟩) →
    xs[i]? = some (k, .inl q) → M.service.fallible c = true → L.rules q c none q' → I w.shared xs →
    I w.shared (xs.set i (k, .inl q'))

variable {L} {P : Pool S K C R α → PoolAction K H → Prop} {I : S → List (K × (Q ⊕ α)) → Prop}
  {w : Pool S K C R α}
  {xs : List (K × (Q ⊕ α))} {i : ℕ} {k : K} {c : C} {p : Option (R c) → Prog C R α}

lemma Tracked.length_eq (h : L.Tracked xs w) : xs.length = w.threads.length := by
  refine Nat.le_antisymm ?_ ?_
  · have hi := h w.threads.length
    rw [getElem?_eq_none (Nat.le_refl w.threads.length)] at hi
    generalize hx : xs[w.threads.length]? = x at hi
    cases hi
    exact getElem?_eq_none_iff.1 hx
  · have hi := h xs.length
    rw [getElem?_eq_none (Nat.le_refl xs.length)] at hi
    generalize hx : w.threads[xs.length]? = x at hi
    cases hi
    exact getElem?_eq_none_iff.1 hx

/-- The state of a call under way. -/
lemma Tracked.ask (h : L.Tracked xs w) (hi : w.threads[i]? = some ⟨k, .ask c p⟩) :
    ∃ q, xs[i]? = some (k, .inl q) ∧ Obeys L.rules (L.post k) q (.ask c p) := by
  have hx := h i
  rw [hi] at hx
  generalize heq : xs[i]? = x at hx
  cases hx with
  | some hx =>
    rename_i x
    obtain ⟨k', q | a⟩ := x
    · obtain ⟨rfl, hobeys⟩ := hx
      exact ⟨q, rfl, hobeys⟩
    · exact hx.2.elim

variable {q : Q}

/-- A call whose state is known is under way. -/
lemma Tracked.busy (h : L.Tracked xs w) (hi : xs[i]? = some (k, .inl q)) :
    ∃ c p, w.threads[i]? = some ⟨k, .ask c p⟩ := by
  have hx := h i
  rw [hi] at hx
  generalize heq : w.threads[i]? = t at hx
  cases hx with
  | some hx =>
    rename_i t
    obtain ⟨k', p⟩ := t
    obtain ⟨rfl, hp⟩ := hx
    cases p with
    | done a => exact hp.elim
    | ask c f => exact ⟨c, f, rfl⟩

/-- A call that has returned. -/
lemma Tracked.returned {a : α} (h : L.Tracked xs w) (hk : w.Returned k a) : (k, .inr a) ∈ xs := by
  obtain ⟨j, hj⟩ := mem_iff_getElem?.1 hk
  have hx := h j
  rw [hj] at hx
  generalize heq : xs[j]? = x at hx
  cases hx with
  | some hx =>
    rename_i x
    obtain ⟨k', q | b⟩ := x
    · exact hx.2.elim
    · obtain ⟨rfl, rfl⟩ := hx
      exact mem_of_getElem? heq

/-- Call by call. -/
lemma Tracked.forall₂ (h : L.Tracked xs w) : Forall₂ L.Tracks xs w.threads := by
  refine forall₂_iff_get.2 ⟨h.length_eq, fun j hx ht => ?_⟩
  have hj := h j
  rw [getElem?_eq_getElem hx, getElem?_eq_getElem ht] at hj
  cases hj with
  | some hj => exact hj

/-- The calls that are known are the calls. -/
lemma Tracked.keys (h : L.Tracked xs w) : xs.map Prod.fst = w.threads.map Thread.key := by
  refine ext_getElem? fun j => ?_
  rw [getElem?_map, getElem?_map]
  have hx := h j
  generalize xs[j]? = x at hx
  generalize w.threads[j]? = t at hx
  cases hx with
  | none => rfl
  | some hx => exact congrArg some hx.1

variable {x : K × (Q ⊕ α)} {t : Thread K C R α} {s : S}

lemma Tracked.set (h : L.Tracked xs w) (hx : L.Tracks x t) :
    L.Tracked (xs.set i x) ⟨s, w.threads.set i t⟩ := by
  intro j
  rw [getElem?_set, getElem?_set, h.length_eq]
  split
  · split
    · exact .some hx
    · exact .none
  · exact h j

lemma Tracked.append (h : L.Tracked xs w) (hx : L.Tracks x t) :
    L.Tracked (xs ++ [x]) { w with threads := w.threads ++ [t] } := by
  intro j
  rcases Nat.lt_trichotomy j xs.length with hlt | rfl | hgt
  · rw [getElem?_append_left hlt, getElem?_append_left (h.length_eq ▸ hlt)]
    exact h j
  · rw [getElem?_concat_length, h.length_eq, getElem?_concat_length]
    exact .some hx
  · rw [getElem?_eq_none, getElem?_eq_none]
    · exact .none
    · rw [length_append, ← h.length_eq]
      exact hgt
    · rw [length_append]
      exact hgt

/-- A call goes on with a program that obeys, or has returned. -/
lemma Keeper.settle (hK : L.Keeper P I) {p : Prog C R α} (h : L.Tracked xs w)
    (hi : i < xs.length) (hp : Obeys L.rules (L.post k) q p) (hI : I s (xs.set i (k, .inl q))) :
    ∃ xs', L.Tracked xs' (w.resume s i k p) ∧ I s xs' := by
  cases p with
  | ask c f => exact ⟨xs.set i (k, .inl q), h.set ⟨rfl, hp⟩, hI⟩
  | done a =>
    refine ⟨xs.set i (k, .inr a), h.set ⟨rfl, rfl⟩, ?_⟩
    have hret := hK.ret s (xs.set i (k, .inl q)) i k q a (getElem?_set_self hi) hp hI
    rwa [set_set] at hret

/-- One action. -/
lemma Keeper.next (hK : L.Keeper P I) {a : PoolAction K H} {w' : Pool S K C R α}
    (h : M.Step w a w') (hP : P w a)
    (hw : ∃ xs, L.Tracked xs w ∧ I w.shared xs) : ∃ xs, L.Tracked xs w' ∧ I w'.shared xs := by
  obtain ⟨xs, hxs, hI⟩ := hw
  cases h with
  | call k hk =>
    have hcall := hK.call w xs k hxs hP hk hI
    have hobeys := L.obeys k
    generalize M.body k = p at hobeys
    cases p with
    | ask c f => exact ⟨xs ++ [(k, .inl (L.start k))], hxs.append ⟨rfl, hobeys⟩, hcall⟩
    | done a =>
      -- a program that does nothing has returned at once
      refine ⟨xs ++ [(k, .inr a)], hxs.append ⟨rfl, rfl⟩, ?_⟩
      have hret := hK.ret w.shared (xs ++ [(k, .inl (L.start k))]) xs.length k _ a
        getElem?_concat_length hobeys hcall
      rwa [set_append_right _ _ (Nat.le_refl _), Nat.sub_self, set_cons_zero] at hret
  | step i ch heard k c p s r hi hheard hrun =>
    obtain ⟨q, hq, hobeys⟩ := hxs.ask hi
    obtain ⟨q', hrules, hobeys'⟩ := hobeys (if heard then some r else none)
    refine hK.settle hxs (List.getElem?_eq_some_iff.1 hq).1 hobeys' ?_
    exact hK.step w xs i ch heard k c q s r q' hxs hP ⟨p, hi⟩ hq hheard hrun hrules hI
  | fail i k c p hi hc =>
    obtain ⟨q, hq, hobeys⟩ := hxs.ask hi
    obtain ⟨q', hrules, hobeys'⟩ := hobeys none
    refine hK.settle hxs (List.getElem?_eq_some_iff.1 hq).1 hobeys' ?_
    exact hK.fail w xs i k c q q' hxs hP ⟨p, hi⟩ hq hc hrules hI

/-- The invariant holds in every state of a run in which actions are taken as `P` says. -/
lemma Keeper.always (hK : L.Keeper P I) {as : List (PoolAction K H)} (hs : I s [])
    (hP : M.machine.Along P ⟨s, []⟩ as) :
    M.machine.Always (fun w => ∃ xs, L.Tracked xs w ∧ I w.shared xs) ⟨s, []⟩ as :=
  hP.always (fun _ _ _ hP hw hstep => hK.next (System.Step.of_step hstep) hP hw)
    ⟨[], fun _ => .none, hs⟩

end Discipline

end Blkit
