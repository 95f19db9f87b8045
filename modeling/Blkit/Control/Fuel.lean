import Blkit.Data.Fallible
import Mathlib.Order.Lattice

/-!
# Programs with fuel

A program that may fail, and whose recursion is cut off when its fuel is used up.
`Returns x Q` says that `x` has a result, and that `Q` holds of it; `Halts f Q` says
the same of a program `f` that takes fuel, for all fuel from some amount on.  Both
are statements of total correctness, with the rules one expects: a loop yields a
result when every round keeps an invariant and makes a measure smaller.
-/

namespace Blkit

open Fallible

/-- Why a run has no result. -/
inductive Stop where
  | outOfRange
  | outOfFuel
deriving DecidableEq, Repr

/-- What a run comes to. -/
abbrev Run := Except Stop

variable {α β : Type}

/-- The loop that repeats its body until the body has a result. -/
def loop (body : α → Run (β ⊕ α)) : Nat → α → Run β
  | 0, _ => .error .outOfFuel
  | n + 1, a => do
    match ← body a with
    | .inl b => pure b
    | .inr a' => loop body n a'

/-! ## Runs without fuel -/

/-- The run has a result, and `Q` holds of it. -/
def Returns (x : Run β) (Q : β → Prop) : Prop := ∃ b, x = .ok b ∧ Q b

namespace Returns

lemma pure {Q : β → Prop} {b : β} (hb : Q b) : Returns (Pure.pure b) Q := ⟨b, rfl, hb⟩

lemma bind {x : Run α} {f : α → Run β} {P : α → Prop} {Q : β → Prop} (hx : Returns x P)
    (hf : ∀ a, P a → Returns (f a) Q) : Returns (x >>= f) Q := by
  obtain ⟨a, rfl, ha⟩ := hx
  exact hf a ha

lemma mono {x : Run β} {P Q : β → Prop} (hx : Returns x P) (h : ∀ b, P b → Q b) : Returns x Q := by
  obtain ⟨b, hb, hP⟩ := hx
  exact ⟨b, hb, h b hP⟩

end Returns

/-! ## Runs with fuel -/

/-- With enough fuel the program has a result, the same however much there is, and
`Q` holds of it. -/
def Halts (f : Nat → Run β) (Q : β → Prop) : Prop := ∃ b, Q b ∧ ∃ N, ∀ n ≥ N, f n = .ok b

lemma Returns.halts {x : Run β} {Q : β → Prop} (h : Returns x Q) : Halts (fun _ => x) Q := by
  obtain ⟨b, rfl, hb⟩ := h
  exact ⟨b, hb, 0, fun _ _ => rfl⟩

namespace Halts

variable {Q : β → Prop}

lemma pure {b : β} (hb : Q b) : Halts (fun _ => Pure.pure b) Q := (Returns.pure hb).halts

lemma bind {f : Nat → Run α} {g : Nat → α → Run β} {P : α → Prop} (hf : Halts f P)
    (hg : ∀ a, P a → Halts (fun n => g n a) Q) : Halts (fun n => f n >>= g n) Q := by
  obtain ⟨a, ha, N, hN⟩ := hf
  obtain ⟨b, hb, M, hM⟩ := hg a ha
  refine ⟨b, hb, max N M, fun n hn => ?_⟩
  show f n >>= g n = .ok b
  rw [hN n (le_trans (le_max_left N M) hn), ok_bind]
  exact hM n (le_trans (le_max_right N M) hn)

lemma mono {f : Nat → Run β} {P : β → Prop} (hf : Halts f P) (h : ∀ b, P b → Q b) : Halts f Q := by
  obtain ⟨b, hb, hN⟩ := hf
  exact ⟨b, h b hb, hN⟩

/-- The first unit of fuel is for the call itself. -/
lemma succ {f : Nat → Run β} (h : Halts (fun n => f (n + 1)) Q) : Halts f Q := by
  obtain ⟨b, hb, N, hN⟩ := h
  refine ⟨b, hb, N + 1, fun n hn => ?_⟩
  cases n with
  | zero => exact absurd hn (Nat.not_succ_le_zero N)
  | succ n => exact hN n (Nat.le_of_succ_le_succ hn)

/-- A loop whose body returns, keeps the invariant and makes the measure smaller. -/
lemma loop {body : α → Run (β ⊕ α)} (I : α → Prop) (μ : α → Nat)
    (hbody : ∀ a, I a → Returns (body a) (Sum.elim Q fun a' => I a' ∧ μ a' < μ a))
    (a : α) (ha : I a) :
    Halts (fun n => Blkit.loop body n a) Q := by
  induction hk : μ a using Nat.strongRecOn generalizing a with
  | ind k ih =>
    refine succ (bind (hbody a ha).halts ?_)
    rintro (b | a') h
    · exact pure h
    · exact ih (μ a') (hk ▸ h.2) a' h.1 rfl

end Halts

end Blkit
