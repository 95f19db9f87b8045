import Blkit.Text.Reading
import Mathlib.Data.List.Induction

/-!
# How a text ends

A string literal that is not closed and ends in a backslash is what the passes cannot
copy.  No text ends so whose last visible byte is not a backslash; that property
is easily seen to survive the passes, and is not lost when white space is taken off.
-/

namespace Blkit

open Reading

/-- The visible ASCII bytes of a text. -/
def ink (t : Text) : Text := t.filter isInk

/-- The last visible byte is not a backslash. -/
def Tidy (t : Text) : Prop := (ink t).getLast? ≠ some '\\'

instance (t : Text) : Decidable (Tidy t) := inferInstanceAs (Decidable (_ ≠ _))

/-- The string literals are closed, or at least the last of them does not end in a
backslash. -/
def Good (t : Text) : Prop := Closed t ∨ Tidy t

@[simp] lemma ink_nil : ink [] = [] := rfl

@[simp] lemma ink_append (a b : Text) : ink (a ++ b) = ink a ++ ink b := List.filter_append a b

lemma ink_cons {c : Char} (hc : isInk c) (t : Text) : ink (c :: t) = c :: ink t :=
  List.filter_cons_of_pos hc

section Tidy

variable {a b t : Text} {c : Char}

lemma tidy_nil : Tidy [] := by simp [Tidy]

lemma tidy_append_of_ink (h : ink b ≠ []) : Tidy (a ++ b) ↔ Tidy b := by
  rw [Tidy, Tidy, ink_append, List.getLast?_append_of_ne_nil _ h]

lemma tidy_append_of_ink_eq_nil (h : ink b = []) : Tidy (a ++ b) ↔ Tidy a := by
  rw [Tidy, Tidy, ink_append, h, List.append_nil]

/-- The end of a text ends as the text does. -/
lemma Tidy.right (h : Tidy (a ++ b)) : Tidy b := by
  by_cases hb : ink b = []
  · simp [Tidy, hb]
  · exact (tidy_append_of_ink hb).1 h

lemma tidy_cons (hc : isInk c) (hne : c ≠ '\\') (h : Tidy b) : Tidy (c :: b) := by
  by_cases hb : ink b = []
  · simp [Tidy, ink_cons hc, hb, hne]
  · rw [← List.singleton_append]
    exact (tidy_append_of_ink hb).2 h

/-- A text is tidy when a visible byte of it is followed by a tidy text. -/
lemma tidy_append_cons (hc : isInk c) (hne : c ≠ '\\') (h : Tidy b) : Tidy (a ++ c :: b) := by
  have hcons := tidy_cons hc hne h
  rwa [tidy_append_of_ink]
  simp [ink_cons hc]

/-- A reader is right after a backslash only when the text ends in one. -/
lemma eq_concat_of_after_eq_escape (h : code.after t = .escape) : ∃ a, t = a ++ ['\\'] := by
  cases t using List.reverseRecOn with
  | nil => cases h
  | append_singleton a c =>
    rw [after_append, after_cons, after_nil] at h
    suffices hc : c = '\\' from ⟨a, by rw [hc]⟩
    cases hst : code.after a with
    | code =>
      rw [hst, step] at h
      split at h <;> cases h
    | string =>
      rw [hst, step] at h
      split at h
      · cases h
      split at h
      · rename_i hc
        exact eq_of_beq hc
      · cases h
    | escape =>
      rw [hst] at h
      cases h

lemma Tidy.after_ne_escape (h : Tidy t) : code.after t ≠ .escape := by
  intro hesc
  obtain ⟨a, rfl⟩ := eq_concat_of_after_eq_escape hesc
  refine h ?_
  rw [ink_append, ink_cons rfl, ink_nil, List.getLast?_concat]

end Tidy

section Good

variable {a b t : Text}

lemma Good.after_ne_escape (h : Good t) : code.after t ≠ .escape := by
  rcases h with h | h
  · rw [show code.after t = .code from h]
    decide
  · exact h.after_ne_escape

/-- Where nothing is visible, no literal begins or ends. -/
lemma after_of_ink_eq_nil {p : Text} (h : ∀ c ∈ p, isInk c = false) :
    code.after p = .code ∧ ∀ st : Reading, st.after p = .code → st = .code := by
  induction p with
  | nil => exact ⟨rfl, fun st h => h⟩
  | cons c p ih =>
    obtain ⟨hc, hp⟩ := List.forall_mem_cons.1 h
    have hq : (c == '"') = false := by
      rw [beq_eq_false_iff_ne]
      rintro rfl
      cases hc
    obtain ⟨hcode, hback⟩ := ih hp
    refine ⟨by rw [Reading.after_cons, Reading.step, hq]; exact hcode, fun st hst => ?_⟩
    have hstep := hback _ hst
    cases st with
    | code => rfl
    | string =>
      rw [Reading.step, hq] at hstep
      simp only [Bool.false_eq_true, if_false] at hstep
      split at hstep <;> cases hstep
    | escape => cases hstep

lemma Closed.right (ha : Closed a) (h : Closed (a ++ b)) : Closed b := by
  rwa [Closed, ha.after_append] at h

lemma Closed.append (ha : Closed a) (hb : Closed b) : Closed (a ++ b) := by
  rw [Closed, ha.after_append]
  exact hb

/-- What follows a part whose literals are closed. -/
lemma Good.right (ha : Closed a) (h : Good (a ++ b)) : Good b := by
  rcases h with h | h
  · exact .inl (ha.right h)
  · exact .inr h.right

end Good

end Blkit
