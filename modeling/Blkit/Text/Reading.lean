import Blkit.Text.Scan
import Mathlib.Data.Int.Init

/-!
# Reading a text

Whether a byte is in a string literal, and how many brackets are open before it, is
the state of a small machine that has read the bytes before it.  `scanLoop_rule` says
that the loops of the passes follow that machine: a loop visits a byte only when the
machine is not in a string literal, and with the depth the machine has.
-/

namespace Blkit

open List

/-- Where in a text a reader is. -/
inductive Reading where
  /-- Not in a string literal. -/
  | code
  /-- In a string literal. -/
  | string
  /-- In a string literal, right after a backslash. -/
  | escape
deriving DecidableEq, Repr

namespace Reading

/-- Reading one byte. -/
def step : Reading → Char → Reading
  | .code, c => if c == '"' then .string else .code
  | .string, c => if c == '"' then .code else if c == '\\' then .escape else .string
  | .escape, _ => .string

/-- Reading a text. -/
def after (st : Reading) (t : Text) : Reading := t.foldl step st

@[simp] lemma after_nil (st : Reading) : st.after [] = st := rfl

@[simp] lemma after_cons (st : Reading) (c : Char) (t : Text) :
    st.after (c :: t) = (st.step c).after t := rfl

@[simp] lemma after_append (st : Reading) (t u : Text) :
    st.after (t ++ u) = (st.after t).after u := foldl_append

end Reading

/-- The string literals of the text are closed. -/
def Closed (t : Text) : Prop := Reading.code.after t = .code

instance (t : Text) : Decidable (Closed t) := inferInstanceAs (Decidable (_ = _))

/-- Where in a text a reader is, and how many brackets are open. -/
structure Cursor where
  reading : Reading
  depth : Int
deriving DecidableEq, Repr

namespace Cursor

/-- Reading one byte.  A bracket in a string literal does not count. -/
def step (u : Cursor) (c : Char) : Cursor where
  reading := u.reading.step c
  depth := if u.reading = .code then u.depth + nesting c else u.depth

/-- Reading a text. -/
def run (u : Cursor) (t : Text) : Cursor := t.foldl step u

@[simp] lemma run_nil (u : Cursor) : u.run [] = u := rfl

@[simp] lemma run_cons (u : Cursor) (c : Char) (t : Text) : u.run (c :: t) = (u.step c).run t := rfl

@[simp] lemma run_append (u : Cursor) (t t' : Text) : u.run (t ++ t') = (u.run t).run t' :=
  foldl_append

lemma reading_run (u : Cursor) (t : Text) : (u.run t).reading = u.reading.after t := by
  induction t generalizing u with
  | nil => rfl
  | cons c t ih => exact ih (u.step c)

/-- The depth at which a reader starts is added to all depths. -/
lemma run_shift (st : Reading) (d k : Int) (t : Text) :
    run ⟨st, d + k⟩ t = ⟨(run ⟨st, d⟩ t).reading, (run ⟨st, d⟩ t).depth + k⟩ := by
  induction t generalizing st d with
  | nil => rfl
  | cons c t ih =>
    rw [run_cons, run_cons, step, step]
    split
    · rw [← ih, Int.add_right_comm]
    · exact ih _ _

end Cursor

/-- A byte that is neither a quote nor a bracket. -/
def Plain (c : Char) : Prop := (c == '"') = false ∧ nesting c = 0

variable {c : Char}

lemma Cursor.step_code (hq : (c == '"') = false) (d : Int) :
    Cursor.step ⟨.code, d⟩ c = ⟨.code, d + nesting c⟩ := by
  simp [Cursor.step, Reading.step, hq]

variable {t : Text}

/-- Where no quote and no bracket stands, a reader only moves on. -/
lemma Cursor.run_plain (h : ∀ c ∈ t, Plain c) (d : Int) : Cursor.run ⟨.code, d⟩ t = ⟨.code, d⟩ := by
  induction t with
  | nil => rfl
  | cons c t ih =>
    obtain ⟨⟨hq, hn⟩, ht⟩ := forall_mem_cons.1 h
    rw [Cursor.run_cons, Cursor.step_code hq, hn, Int.add_zero, ih ht]

/-- What follows text that is read without being in a literal. -/
lemma Closed.after_append (h : Closed t) (u : Text) :
    Reading.code.after (t ++ u) = Reading.code.after u := by
  rw [Reading.after_append, show Reading.code.after t = .code from h]

lemma closed_concat (h : Closed t) (hc : (c == '"') = false) : Closed (t ++ [c]) := by
  rw [Closed, h.after_append]
  simp [Reading.step, hc]

lemma Closed.of_run {d d' : Int} (h : Cursor.run ⟨.code, d⟩ t = ⟨.code, d'⟩) : Closed t := by
  rw [Closed, ← Cursor.reading_run ⟨.code, d⟩, h]

/-! ## String literals -/

section Literal

/-- The reader in a string literal, as `skipBody` has it. -/
def inLiteral (escaped : Bool) : Reading := if escaped then .escape else .string

variable {escaped : Bool}

lemma step_inLiteral {c : Char} (h : escaped ∨ c ≠ '"') :
    (inLiteral escaped).step c = inLiteral (!escaped && c == '\\') := by
  cases escaped with
  | true => rfl
  | false =>
    have hq : (c == '"') = false := beq_eq_false_iff_ne.2 (by simpa using h)
    show (if c == '"' then Reading.code else _) = _
    rw [hq]
    cases c == '\\' <;> rfl

lemma skipBody_cons (escaped : Bool) (c : Char) (t : Text) : skipBody escaped (c :: t) =
    if escaped = false ∧ c = '"' then 1 else skipBody (!escaped && c == '\\') t + 1 := by
  cases escaped <;> simp [skipBody]

variable {t : Text}

/-- A literal that ends before the text does is closed. -/
lemma Cursor.run_take_skipBody (h : skipBody escaped t < t.length)
    (d : Int) : Cursor.run ⟨inLiteral escaped, d⟩ (t.take (skipBody escaped t)) = ⟨.code, d⟩ := by
  induction t generalizing escaped with
  | nil => simp at h
  | cons c t ih =>
    have hcode : inLiteral escaped ≠ .code := by cases escaped <;> decide
    rw [skipBody_cons] at h ⊢
    split
    · rename_i hc
      obtain ⟨rfl, rfl⟩ := hc
      simp [inLiteral, Cursor.step, Reading.step]
    · rename_i hc
      rw [if_neg hc, length_cons, Nat.succ_lt_succ_iff] at h
      rw [take_succ_cons, Cursor.run_cons, Cursor.step, step_inLiteral, if_neg hcode, ih h]
      rw [not_and_or] at hc
      simpa using hc

/-- A literal that goes on after the text ends in a backslash. -/
lemma after_eq_escape (h : t.length < skipBody escaped t) :
    (inLiteral escaped).after t = .escape := by
  induction t generalizing escaped with
  | nil =>
    cases escaped with
    | true => rfl
    | false => simp [skipBody] at h
  | cons c t ih =>
    rw [skipBody_cons] at h
    split at h
    · simp at h
    · rename_i hc
      rw [length_cons, Nat.succ_lt_succ_iff] at h
      rw [Reading.after_cons, step_inLiteral, ih h]
      rw [not_and_or] at hc
      simpa using hc

lemma skipBody_le (escaped : Bool) (t : Text) : skipBody escaped t ≤ t.length + 1 := by
  induction t generalizing escaped with
  | nil => cases escaped <;> simp [skipBody]
  | cons c t ih =>
    rw [skipBody_cons, length_cons]
    split
    · omega
    · have := ih (!escaped && c == '\\')
      omega

end Literal

/-! ## The loop -/

section Rule

variable {σ ρ : Type} {visit : Nat → Char → Int → σ → Step σ ρ} {t : Text} {i : Nat} {d : Int}
  {P : Text → σ → Prop} {Q : ρ → Prop}

/-- A step that leaves the loop with a result for which `Q` holds, or goes on as `R` says. -/
def Step.Holds (Q : ρ → Prop) (R : Nat → σ → Prop) : Step σ ρ → Prop
  | .stop r => Q r
  | .next n st => R n st

lemma Step.Holds.imp {R R' : Nat → σ → Prop} {x : Step σ ρ} (h : x.Holds Q R)
    (himp : ∀ n st, R n st → R' n st) : x.Holds Q R' := by
  cases x with
  | stop r => exact h
  | next n st => exact himp n st h

variable (hmono : ∀ a b st, P a st → P (a ++ b) st)
  (hstep : ∀ a c b d' st, t = a ++ c :: b → Cursor.run ⟨.code, d⟩ a = ⟨.code, d'⟩ →
    (c == '"') = false → P a st → (visit (i + a.length) c (d' + nesting c) st).Holds Q
      fun n st' => P (a ++ [c]) st' ∧ ∀ x ∈ b.take (n - 1), Plain x)

include hmono hstep

/-- What the loop does with what is left, `skip` bytes of which have been dealt with. -/
lemma scanLoop_rule_from (rest a : Text) (skip : Nat) (d' : Int) (st : σ) (ht : t = a ++ rest)
    (hskip : skip < rest.length → Cursor.run ⟨.code, d⟩ (a ++ rest.take skip) = ⟨.code, d'⟩)
    (hP : P a st) : (scanLoop visit rest skip (i + a.length) d' st).elim Q (P t) := by
  induction rest generalizing a skip d' st with
  | nil => simpa [scanLoop, ht] using hP
  | cons c rest ih =>
    have hlen : i + a.length + 1 = i + (a ++ [c]).length := by
      rw [length_append, length_singleton, Nat.add_assoc]
    have ht' : t = (a ++ [c]) ++ rest := by simp [ht]
    cases skip with
    | succ skip =>
      rw [scanLoop, hlen]
      refine ih _ _ _ _ ht' (fun h => ?_) (hmono _ _ _ hP)
      have hrun := hskip (by simpa using h)
      rwa [take_succ_cons, ← singleton_append, ← append_assoc] at hrun
    | zero =>
      have hrun : Cursor.run ⟨.code, d⟩ a = ⟨.code, d'⟩ := by simpa using hskip (by simp)
      rw [scanLoop]
      split
      · -- a string literal is passed as a whole
        rename_i hq
        rw [hlen]
        refine ih _ _ _ _ ht' (fun h => ?_) (hmono _ _ _ hP)
        have hlit := Cursor.run_take_skipBody h d'
        have hopen : Cursor.step ⟨.code, d'⟩ c = ⟨inLiteral false, d'⟩ := by
          rw [eq_of_beq hq]
          simp [Cursor.step, Reading.step, inLiteral, nesting, isOpen, isClose]
        rw [Cursor.run_append, Cursor.run_append, hrun, Cursor.run_cons,
          Cursor.run_nil, hopen, hlit]
      · rename_i hq
        have hq : (c == '"') = false := by simpa using hq
        have hholds := hstep a c rest d' st ht hrun hq hP
        cases hv : visit (i + a.length) c (d' + nesting c) st with
        | stop r =>
          rw [hv] at hholds
          exact hholds
        | next n st' =>
          rw [hv] at hholds
          obtain ⟨hP', hplain⟩ := hholds
          rw [hlen]
          refine ih _ _ _ _ ht' (fun _ => ?_) hP'
          rw [Cursor.run_append, Cursor.run_append, hrun, Cursor.run_cons, Cursor.run_nil,
            Cursor.step_code hq, Cursor.run_plain hplain]

/-- A loop over a text: `P` holds of what has been read and the state of the loop
before every byte that is visited, and `Q` of the result with which the loop is left. -/
lemma scanLoop_rule {st : σ} (hP : P [] st) : (scanLoop visit t 0 i d st).elim Q (P t) :=
  scanLoop_rule_from hmono hstep t [] 0 d st rfl (fun _ => by simp) hP

end Rule

end Blkit
