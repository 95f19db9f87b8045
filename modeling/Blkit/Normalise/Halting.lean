import Blkit.Normalise.Copy
import Blkit.Normalise.Weight

/-!
# The passes that repeat come to an end

Six passes rewrite a text until nothing is left to rewrite.  Each of them comes to an
end because of a measure that its rounds make smaller, whatever the text is; only
`lowerIsDefined`, which first copies the text, needs that no string literal is cut off
after a backslash.  Along the way a text that does not end in a backslash is not given
one at its end, which is what the passes after it need.
-/

namespace Blkit

open Fallible

section Loops

variable {body : Text → Run (Text ⊕ Text)}

/-- A loop whose rounds make a measure smaller. -/
lemma loop_halts (μ : Text → Nat) (hbody : ∀ s, Returns (body s)
      (Sum.elim (· = s) fun s' => μ s' < μ s ∧ (Tidy s → Tidy s'))) (s : Text) :
    Halts (fun n => loop body n s) fun r => Tidy s → Tidy r := by
  refine Halts.loop (fun t => Tidy s → Tidy t) μ (fun t ht => (hbody t).mono ?_) s id
  rintro (r | t') h
  · obtain rfl : r = t := h
    exact ht
  · exact ⟨fun hs => h.2 (ht hs), h.1⟩

lemma loop_halts_of_rarer {x : Char}
    (hbody : ∀ s, Returns (body s) (Sum.elim (· = s) (Rarer x s))) (s : Text) :
    Halts (fun n => loop body n s) fun r => Tidy s → Tidy r := by
  refine loop_halts (List.count x) (fun t => (hbody t).mono ?_) s
  rintro (r | t') h
  · exact h
  · exact ⟨h.count_lt, h.tidy⟩

lemma lowerSequence_halts (s : Text) :
    Halts (fun n => lowerSequence n s) fun r => Tidy s → Tidy r :=
  loop_halts_of_rarer sequenceRound_returns s

lemma lowerInlineFunctions_halts (s : Text) :
    Halts (fun n => lowerInlineFunctions n s) fun r => Tidy s → Tidy r :=
  loop_halts_of_rarer inlineFunctionRound_returns s

lemma lowerInstanceOf_halts (s : Text) :
    Halts (fun n => lowerInstanceOf n s) fun r => Tidy s → Tidy r :=
  loop_halts_of_rarer instanceOfRound_returns s

lemma lowerBetween_halts (s : Text) : Halts (fun n => lowerBetween n s) fun r => Tidy s → Tidy r :=
  loop_halts betweenWeight betweenRound_returns s

end Loops

/-- The operands of a two-slot bracket have fewer brackets than the text, and so does the
text after a round. -/
lemma lowerTableIndex_halts (s : Text) : Halts (fun n => lowerTableIndex n s) fun r =>
    r.count '[' ≤ s.count '[' ∧ (Tidy s → Tidy r) := by
  induction hk : s.count '[' using Nat.strongRecOn generalizing s with
  | ind k ih =>
    subst hk
    refine Halts.succ ?_
    simp only [lowerTableIndex]
    have hround := tableIndexRound_halts (s := s) fun t ht => (ih _ ht t rfl).mono fun _ h => h.1
    refine hround.bind ?_
    rintro (r | t) h
    · obtain rfl : r = s := h
      exact Halts.pure ⟨Nat.le_refl _, id⟩
    · refine (ih _ h.count_lt t rfl).mono fun r hr => ?_
      exact ⟨hr.1.trans h.count_lt.le, fun hs => hr.2 (h.tidy hs)⟩

lemma lowerIsDefined_halts (s : Text) (hs : Good s) :
    Halts (fun n => lowerIsDefined n s) fun r => Tidy s → Tidy r := by
  induction hk : s.length using Nat.strongRecOn generalizing s with
  | ind k ih =>
    subst hk
    refine Halts.succ ?_
    simp only [lowerIsDefined]
    have hgroups := mapTopLevelGroups_halts lowerIsDefined compatible_true hs
      fun t hlt _ ht => (ih _ hlt t ht rfl).mono fun r h => ⟨h, trivial⟩
    refine hgroups.bind fun s' hs' => ?_
    refine (loop_halts_of_rarer isDefinedRound_returns s').mono fun r hr htidy => ?_
    exact hr (hs'.1.tidy htidy)

/-- Every pass that repeats until nothing changes comes to an end. -/
theorem repeating_passes_terminate (s : Text) (hs : Closed s) :
    ∀ pass ∈ [lowerSequence, lowerInlineFunctions, lowerTableIndex, lowerInstanceOf,
      lowerIsDefined, lowerBetween], ∃ r N, ∀ n ≥ N, pass n s = .ok r := by
  have hends {pass : Nat → Text → Run Text} {Q : Text → Prop}
      (h : Halts (fun n => pass n s) Q) : ∃ r N, ∀ n ≥ N, pass n s = .ok r := by
    obtain ⟨r, -, hN⟩ := h
    exact ⟨r, hN⟩
  simp only [List.mem_cons, List.not_mem_nil, or_false, forall_eq_or_imp, forall_eq]
  exact ⟨hends (lowerSequence_halts s), hends (lowerInlineFunctions_halts s),
    hends (lowerTableIndex_halts s), hends (lowerInstanceOf_halts s),
    hends (lowerIsDefined_halts s (.inl hs)), hends (lowerBetween_halts s)⟩

/-- One `between`. -/
theorem repeating_passes_terminate_between : Closed "x between 1 and 2".toList ∧
    ∀ pass ∈ [lowerSequence, lowerInlineFunctions, lowerTableIndex, lowerInstanceOf,
      lowerIsDefined, lowerBetween], ∃ r N, ∀ n ≥ N, pass n "x between 1 and 2".toList = .ok r :=
  ⟨by decide, repeating_passes_terminate _ (by decide)⟩

end Blkit
