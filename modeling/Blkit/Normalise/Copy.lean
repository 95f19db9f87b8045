import Blkit.Normalise.Bounds
import Blkit.Normalise.Passes
import Blkit.Text.Tidy

/-!
# Passes that copy

What a pass that writes a new text from left to right does, whatever the text is.  A
relation between texts that is kept when texts whose literals are closed are put one
after the other holds between the text and its copy when it holds for everything that
`emit` writes; and the only slice that can be out of range is a string literal that is
not closed and ends in a backslash.
-/

namespace Blkit

open Fallible List

/-- A relation between texts that can be shown piece by piece. -/
structure Compatible (R : Text → Text → Prop) : Prop where
  refl : ∀ a, R a a
  append : ∀ {a a' b b'}, Closed a → R a a' → R b b' → R (a ++ b) (a' ++ b')

/-- The copy ends as the text does. -/
structure EndsAs (a a' : Text) : Prop where
  ink : ink a = [] ↔ ink a' = []
  tidy : Tidy a → Tidy a'

lemma compatible_endsAs : Compatible EndsAs where
  refl a := ⟨Iff.rfl, id⟩
  append {a a' b b'} _ ha hb := by
    refine ⟨by simp [ha.ink, hb.ink], fun h => ?_⟩
    by_cases hink : ink b = []
    · rw [tidy_append_of_ink_eq_nil hink] at h
      rw [tidy_append_of_ink_eq_nil (hb.ink.1 hink)]
      exact ha.tidy h
    · rw [tidy_append_of_ink hink] at h
      rw [tidy_append_of_ink fun h' => hink (hb.ink.2 h')]
      exact hb.tidy h

lemma Compatible.and {R R' : Text → Text → Prop} (h : Compatible R) (h' : Compatible R') :
    Compatible fun a a' => R a a' ∧ R' a a' where
  refl a := ⟨h.refl a, h'.refl a⟩
  append hclosed ha hb := ⟨h.append hclosed ha.1 hb.1, h'.append hclosed ha.2 hb.2⟩

lemma compatible_true : Compatible fun _ _ => True := ⟨fun _ => trivial, fun _ _ _ => trivial⟩

/-! ## The loop -/

section CopyLoop

variable {R : Text → Text → Prop} {emit : Nat → Option Char → Char → Text → Run (Text × Nat)}
  {s : Text} (hR : Compatible R) (hs : Reading.code.after s ≠ .escape)

include hR hs

section Fuel

variable (hemit : ∀ prev a c rest, s = a ++ c :: rest → Closed a → (c == '"') = false →
    Halts (fun n => emit n prev c rest) fun x =>
      (x.2 < rest.length → Closed (c :: rest.take x.2)) ∧ R (c :: rest.take x.2) x.1)

include hemit

/-- What the loop does with what is left, `skip` bytes of which have been read. -/
lemma copyLoop_halts_from (rest a : Text) (prev : Option Char) (skip : Nat) (hrest : s = a ++ rest)
    (hskip : skip < rest.length → Closed (a ++ rest.take skip)) :
    Halts (fun n => copyLoop (emit n) prev rest skip) fun out =>
      R (rest.drop skip) out ∧ (rest.length ≤ skip → out = []) := by
  induction rest generalizing a prev skip with
  | nil =>
    simp only [copyLoop, drop_nil]
    exact Halts.pure ⟨hR.refl [], fun _ => rfl⟩
  | cons c rest ih =>
    have hrest' : s = (a ++ [c]) ++ rest := by rw [hrest]; simp
    cases skip with
    | succ skip =>
      simp only [copyLoop, drop_succ_cons, length_cons, Nat.add_le_add_iff_right]
      refine ih (a ++ [c]) (some c) skip hrest' fun hlt => ?_
      have := hskip (Nat.succ_lt_succ hlt)
      rwa [take_succ_cons, append_cons] at this
    | zero =>
      have ha : Closed a := by simpa using hskip (Nat.zero_lt_succ _)
      -- what is written for the bytes up to `n`, in front of what is written for the others
      have hjoin {n : Nat} {w out : Text} (hclosed : n < rest.length → Closed (c :: rest.take n))
          (hw : R (c :: rest.take n) w)
          (hout : R (rest.drop n) out ∧ (rest.length ≤ n → out = [])) :
            R (c :: rest) (w ++ out) := by
        by_cases hlt : n < rest.length
        · have := hR.append (hclosed hlt) hw hout.1
          rwa [cons_append, take_append_drop] at this
        · rw [hout.2 (Nat.le_of_not_lt hlt), append_nil]
          rwa [take_of_length_le (Nat.le_of_not_lt hlt)] at hw
      have hnext {n : Nat} (hclosed : n < rest.length → Closed (c :: rest.take n))
          (hlt : n < rest.length) : Closed ((a ++ [c]) ++ rest.take n) := by
        rw [← append_cons]
        exact ha.append (hclosed hlt)
      have hne (out : Text) (h : (c :: rest).length ≤ 0) : out = [] := absurd h (by simp)
      simp only [copyLoop, drop_zero]
      split
      · rename_i hq
        obtain rfl : c = '"' := by simpa using hq
        have hle : skipBody false rest ≤ rest.length := by
          by_contra hlt
          refine hs ?_
          rw [hrest, ha.after_append]
          exact after_eq_escape (Nat.lt_of_not_le hlt)
        have hclosed (hlt : skipBody false rest < rest.length) :
            Closed ('"' :: rest.take (skipBody false rest)) := by
          have hrun := Cursor.run_take_skipBody hlt 0
          exact @Closed.of_run _ 0 0 hrun
        simp only [slice_eq_ok (Nat.zero_le _) hle, ok_bind, part, drop_zero]
        refine (ih (a ++ ['"']) (some '"') _ hrest' (hnext hclosed)).bind fun out hout =>
          Halts.pure ⟨?_, hne _⟩
        exact hjoin hclosed (hR.refl _) hout
      · rename_i hq
        refine (hemit prev a c rest hrest ha (by simpa using hq)).bind fun x hx => ?_
        refine (ih (a ++ [c]) (some c) x.2 hrest' (hnext hx.1)).bind fun out hout =>
          Halts.pure ⟨?_, hne _⟩
        exact hjoin hx.1 hx.2 hout

/-- The rule for a pass that copies. -/
lemma copyLoop_halts : Halts (fun n => copyLoop (emit n) none s 0) (R s) :=
  (copyLoop_halts_from hR hs hemit s [] none 0 rfl fun _ => rfl).mono fun _ h => h.1

end Fuel

end CopyLoop

/-! ## Groups -/

section Groups

variable {E : Text → Text → Prop} {s : Text}

lemma isInk_of_isOpen {c : Char} (h : isOpen c) : isInk c ∧ c ≠ '\\' ∧ Closed [c] := by
  rcases isOpen_iff.1 h with rfl | rfl | rfl <;> exact ⟨rfl, by decide, rfl⟩

/-- `mapTopLevelGroups`, when `fn` does what it should on the groups, which are shorter
than the text. -/
lemma mapTopLevelGroups_halts (fn : Nat → Text → Run Text) (hE : Compatible E) (hs : Good s)
    (hfn : ∀ t, t.length < s.length → t <:+: s → Good t →
      Halts (fun n => fn n t) fun r => (Tidy t → Tidy r) ∧ E t r) :
    Halts (fun n => Checked.mapTopLevelGroups s (fn n)) fun s' => EndsAs s s' ∧ E s s' := by
  simp only [Checked.mapTopLevelGroups]
  refine copyLoop_halts (compatible_endsAs.and hE) hs.after_ne_escape
    fun prev a c rest hsplit ha hc => ?_
  split
  · rename_i hopen
    obtain ⟨hink, hne, hclosed⟩ := isInk_of_isOpen hopen
    have hgood : Good rest := by
      rw [hsplit] at hs
      exact Good.right hclosed (hs.right ha)
    obtain ⟨hover, hat⟩ :=
      @closeAt_spec_from c (matchingClose c) rest rest [] 0 1 rfl (fun _ => rfl) nofun
    have hle : closeAt c (matchingClose c) rest 0 1 0 ≤ rest.length :=
      Nat.le_of_not_lt fun h => hgood.after_ne_escape (hover h)
    generalize closeAt c (matchingClose c) rest 0 1 0 = j at *
    have hlen : (rest.take j).length < s.length := by
      rw [hsplit, length_take]
      simp
      omega
    have hwithin : rest.take j <:+: s := by
      rw [hsplit, append_cons]
      exact ( take_prefix j rest).isInfix.trans (suffix_append _ _).isInfix
    have htake : Good (rest.take j) := by
      rcases Nat.lt_or_eq_of_le hle with hlt | rfl
      · exact .inl (hat hlt).2
      · rwa [take_length]
    simp only [if_pos hle]
    refine (hfn _ hlen hwithin htake).bind fun r hr => Halts.pure ?_
    rcases Nat.lt_or_eq_of_le hle with hlt | rfl
    · -- the group is closed
      obtain ⟨hbyte, hinner⟩ := hat hlt
      obtain ⟨hink', hne', hclose⟩ : isInk (matchingClose c) ∧ matchingClose c ≠ '\\' ∧
          Closed [matchingClose c] := by
        rcases isOpen_iff.1 hopen with rfl | rfl | rfl <;> exact ⟨rfl, by decide, rfl⟩
      have hgroup : c :: rest.take (j + 1) = [c] ++ (rest.take j ++ [matchingClose c]) := by
        rw [take_add_one, hbyte]
        rfl
      rw [if_pos hlt, hgroup]
      refine ⟨fun _ => hclosed.append (hinner.append hclose), ⟨⟨?_, ?_⟩, ?_⟩⟩
      · simp [ink_cons hink]
      · intro _
        exact tidy_append_cons hink' hne' tidy_nil
      · have hinside := hE.append hinner hr.2 (hE.refl [matchingClose c])
        have hgroup' := hE.append hclosed (hE.refl [c]) hinside
        rwa [← append_assoc [c] r] at hgroup'
    · -- the group goes on to the end of the text
      rw [take_length] at hr
      rw [take_of_length_le (Nat.le_succ _), if_neg (Nat.lt_irrefl _), append_nil]
      refine ⟨fun h => absurd h (by omega), ⟨⟨?_, ?_⟩, ?_⟩⟩
      · simp [ink_cons hink]
      · intro h
        exact tidy_cons hink hne (hr.1 (Tidy.right (a := [c]) h))
      · exact hE.append hclosed (hE.refl [c]) hr.2
  · refine Halts.pure ⟨fun _ => ?_, (compatible_endsAs.and hE).refl [c]⟩
    exact closed_concat (t := []) rfl hc

end Groups

end Blkit
