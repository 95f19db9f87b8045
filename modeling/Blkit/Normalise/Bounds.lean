import Blkit.Normalise.Scanners
import Blkit.Text.Reading
import Blkit.Text.Split

/-!
# Where the helpers of the passes stop

For each search of `Scanners.lean`, what is known of the index that it returns: which
bytes stand there, that it is in range, and what a reader of the text before it knows.
-/

namespace Blkit

open List
open Cursor (run run_append run_cons step_code)

/-! ## Parts of a text -/

section Part

variable {s : Text} {i j k : Nat}

lemma slice_eq_ok (hij : i ≤ j) (hj : j ≤ s.length) : slice s i j = .ok (part s i j) :=
  if_pos ⟨hij, hj⟩

@[simp] lemma part_self (s : Text) (i : Nat) : part s i i = [] := by
  rw [part, drop_eq_nil_of_le (length_take_le i s)]

lemma part_append (hij : i ≤ j) (hjk : j ≤ k) : part s i j ++ part s j k = part s i k := by
  obtain ⟨n, rfl⟩ := Nat.exists_eq_add_of_le hij
  obtain ⟨m, rfl⟩ := Nat.exists_eq_add_of_le hjk
  rw [part, part, part, drop_take, drop_take, drop_take, Nat.add_assoc,
    Nat.add_sub_cancel_left, Nat.add_sub_cancel_left, ← Nat.add_assoc, Nat.add_sub_cancel_left,
    take_add, drop_drop]

lemma part_zero_length (s : Text) : part s 0 s.length = s := by simp [part]

lemma length_part (hj : j ≤ s.length) : (part s i j).length = j - i := by
  rw [part, length_drop, length_take, Nat.min_eq_left hj]

lemma part_subset {i' j' : Nat} (hi : i ≤ i') (hj : j' ≤ j) : part s i' j' ⊆ part s i j := by
  obtain ⟨n, rfl⟩ := Nat.exists_eq_add_of_le hi
  have hdrop : part s (i + n) j' = (part s i j').drop n := by rw [part, part, drop_drop]
  have htake : part s i j' ⊆ part s i j := by
    rw [part, part, drop_take, drop_take]
    exact take_subset_take_left _ (Nat.sub_le_sub_right hj i)
  rw [hdrop]
  exact fun x hx => htake (drop_subset n _ hx)

/-- The parts before, between and behind two indices. -/
lemma part_append_part_append_part (hij : i ≤ j) (hj : j ≤ s.length) :
    part s 0 i ++ (part s i j ++ part s j s.length) = s := by
  rw [part_append hij hj, part_append (Nat.zero_le i) (hij.trans hj), part_zero_length]

lemma part_succ {c : Char} (hij : i ≤ j) (hc : s[j]? = some c) :
    part s i (j + 1) = part s i j ++ [c] := by
  obtain ⟨hj, rfl⟩ := List.getElem?_eq_some_iff.1 hc
  rw [part, take_succ_eq_append_getElem hj, drop_append_of_le_length, part]
  rwa [length_take, Nat.min_eq_left hj.le]

lemma part_cons {c : Char} (hij : i < j) (hc : s[i]? = some c) :
    part s i j = c :: part s (i + 1) j := by
  have hone : part s i (i + 1) = [c] := by rw [part_succ (Nat.le_refl i) hc, part_self, nil_append]
  rw [← part_append (Nat.le_succ i) hij, hone, singleton_append]

end Part

/-! ## The loop, by indices -/

section Scan

variable {σ ρ : Type} {visit : Nat → Char → Int → σ → Step σ ρ} {s : Text} {start limit : Nat}

section Rule

variable {P : Nat → σ → Prop} {Q : ρ → Prop} {st : σ} (hlimit : limit ≤ s.length)
  (hstart : start ≤ limit)
  (hmono : ∀ i j st, i ≤ j → P i st → P j st)
  (hstep : ∀ i c d st, start ≤ i → i < limit → s[i]? = some c →
    run ⟨.code, 0⟩ (part s start i) = ⟨.code, d⟩ → (c == '"') = false → P i st →
      (visit i c (d + nesting c) st).Holds Q
        fun n st' => P (i + 1) st' ∧ ∀ x ∈ part s (i + 1) (i + n), Plain x)
  (hst : P start st)

include hlimit hstart hmono hstep hst

/-- `scanLoop_rule` for a loop over part of a text. -/
lemma scan_rule : (scan visit s start limit st).elim Q (P limit) := by
  have hrule : (scanLoop visit (part s start limit) 0 start 0 st).elim Q
      (P (start + (part s start limit).length)) := by
    refine scanLoop_rule (P := fun a st => P (start + a.length) st) ?_ ?_ (by simpa using hst)
    · intro a b st hP
      exact hmono _ _ _ (by simp) hP
    · intro a c b d st ht hrun hq hP
      have hlen := congrArg length ht
      rw [length_part hlimit, length_append, length_cons] at hlen
      have hi : start + a.length < limit := by omega
      have hsplit : part s start (start + a.length) ++ part s (start + a.length) limit =
          a ++ c :: b := by
        rw [← ht, part_append (Nat.le_add_right _ _) hi.le]
      obtain ⟨ha, hb⟩ := append_inj hsplit (by rw [length_part (by omega)]; omega)
      have hc : s[start + a.length]? = some c := by
        have := congrArg head? hb
        rwa [part, head?_drop, getElem?_take_of_lt hi, head?_cons] at this
      have hb' : b = part s (start + a.length + 1) limit := by
        rw [part_cons hi hc] at hb
        exact (cons.inj hb).2.symm
      refine (hstep _ c d st (Nat.le_add_right _ _) hi hc (by rw [ha]; exact hrun) hq hP).imp ?_
      rintro n st' ⟨hP', hplain⟩
      refine ⟨by simpa [Nat.add_assoc] using hP', fun x hx => hplain x ?_⟩
      rw [hb', part, drop_take, take_take] at hx
      rw [part, drop_take]
      refine (take_subset_take_left _ ?_) hx
      omega
  rw [length_part hlimit, Nat.add_sub_cancel' hstart] at hrule
  exact hrule

/-- The same for a loop that goes on to the end. -/
lemma scan_through [IsEmpty ρ] {f : ρ → σ} : P limit ((scan visit s start limit st).elim f id) := by
  have hrule := scan_rule hlimit hstart hmono hstep hst
  cases hscan : scan visit s start limit st with
  | inl r => exact isEmptyElim r
  | inr st' =>
    rw [hscan] at hrule
    exact hrule

end Rule

/-- A loop that only looks for an index. -/
lemma scan_some {visit : Nat → Char → Int → Unit → Step Unit Nat} (hlimit : limit ≤ s.length)
    {r : Nat} (h : (scan visit s start limit ()).getLeft? = some r)
    (hvisit : ∀ i c d, visit i c d () = .stop i ∨ visit i c d () = .next 1 ()) : start ≤ r ∧
      r < limit ∧
      ∃ c d, s[r]? = some c ∧ run ⟨.code, 0⟩ (part s start r) = ⟨.code, d⟩ ∧
        visit r c (d + nesting c) () = .stop r := by
  have hstart : start ≤ limit := by
    by_contra hlt
    have hnil : (s.take limit).drop start = [] := drop_eq_nil_of_le (by
      rw [length_take]
      omega)
    rw [scan, hnil] at h
    cases h
  have hrule : (scan visit s start limit ()).elim (fun r => start ≤ r ∧ r < limit ∧
      ∃ c d, s[r]? = some c ∧ run ⟨.code, 0⟩ (part s start r) = ⟨.code, d⟩ ∧
        visit r c (d + nesting c) () = .stop r) fun _ => True := by
    refine scan_rule (P := fun _ _ => True) hlimit hstart (fun _ _ _ _ _ => trivial)
      (fun i c d _ hsi hil hc hrun _ _ => ?_) trivial
    obtain hv | hv := hvisit i c (d + nesting c)
    · rw [hv]
      exact ⟨hsi, hil, c, d, hc, hrun, hv⟩
    · rw [hv]
      exact ⟨trivial, by simp⟩
  rw [Sum.getLeft?_eq_some_iff.1 h] at hrule
  exact hrule

/-- The same, when the byte is found by a test. -/
lemma scan_if {p : Nat → Char → Int → Bool} (hlimit : limit ≤ s.length) {r : Nat}
    (h : (scan (fun i c d (_ : Unit) => if p i c d then Step.stop i else .next 1 ()) s start
      limit ()).getLeft? = some r) : start ≤ r ∧ r < limit ∧
      ∃ c d, s[r]? = some c ∧ run ⟨.code, 0⟩ (part s start r) = ⟨.code, d⟩ ∧
        p r c (d + nesting c) := by
  obtain ⟨hle, hlt, c, d, hc, hrun, hv⟩ := scan_some hlimit h fun i c d => by
    cases p i c d
    · exact .inr rfl
    · exact .inl rfl
  refine ⟨hle, hlt, c, d, hc, hrun, ?_⟩
  by_contra hp
  rw [if_neg hp] at hv
  cases hv

end Scan

lemma nesting_of_isOpen {c : Char} (h : isOpen c) : nesting c = 1 := if_pos h

lemma nesting_of_isClose {c : Char} (h : isClose c) : nesting c = -1 := by
  rcases isClose_iff.1 h with rfl | rfl | rfl <;> rfl

/-! ## Keywords -/

section Keyword

variable {s kw : Text} {i k start : Nat}

lemma IsWord.plain (h : IsWord kw) : ∀ c ∈ kw, Plain c :=
  fun c hc => plain_of_isIdentByte (h.2 c hc)

/-- A keyword stands where it matches, and is no part of a longer word. -/
lemma part_of_matchKeyword (hkw : IsWord kw) (h : matchKeyword s i kw) :
    i + kw.length ≤ s.length ∧ part s i (i + kw.length) = kw ∧
      (0 < i → s[i - 1]?.any isIdentByte = false) ∧ s[i + kw.length]?.any isIdentByte = false := by
  simp only [matchKeyword, Bool.and_eq_true, beq_iff_eq, Bool.not_eq_true', Bool.and_eq_false_iff,
    decide_eq_false_iff_not] at h
  obtain ⟨⟨htake, hprev⟩, hnext⟩ := h
  have hpos : 0 < kw.length := length_pos_iff.2 hkw.1
  have hlen := congrArg length htake
  rw [length_take, length_drop] at hlen
  refine ⟨by omega, ?_, fun hi => hprev.resolve_left (not_not.2 hi), hnext⟩
  rw [part, drop_take, Nat.add_sub_cancel_left, htake]

/-- No word goes on across the index. -/
def Border (s : Text) (j : Nat) : Prop :=
  0 < j → s[j - 1]?.any isIdentByte = true → s[j]?.any isIdentByte = false

/-- A keyword has a border on both sides. -/
lemma border_of_matchKeyword (hkw : IsWord kw) (h : matchKeyword s i kw) :
    Border s i ∧ Border s (i + kw.length) := by
  obtain ⟨-, -, hprev, hnext⟩ := part_of_matchKeyword hkw h
  refine ⟨fun hi hident => ?_, fun _ _ => hnext⟩
  rw [hprev hi] at hident
  cases hident

/-- The bytes of a keyword that matches. -/
lemma getElem?_of_matchKeyword (hkw : IsWord kw) (h : matchKeyword s i kw) {j : Nat}
    (hij : i ≤ j) (hj : j < i + kw.length) : ∃ c, s[j]? = some c ∧ isIdentByte c := by
  obtain ⟨hle, hpart, -, -⟩ := part_of_matchKeyword hkw h
  have hget : kw[j - i]? = s[j]? := by
    rw [← hpart, part, getElem?_drop, Nat.add_sub_cancel' hij, getElem?_take_of_lt hj]
  have hlt : j - i < kw.length := by omega
  rw [getElem?_eq_getElem hlt] at hget
  exact ⟨_, hget.symm, hkw.2 _ (getElem_mem hlt)⟩

/-- A word ends before the next one begins. -/
lemma le_of_matchKeyword {kw' : Text} (hkw : IsWord kw) (hkw' : IsWord kw')
    (h : matchKeyword s i kw) (h' : matchKeyword s k kw') (hik : i < k) :
    i + kw.length ≤ k := by
  by_contra hlt
  obtain ⟨-, -, hprev, -⟩ := part_of_matchKeyword hkw' h'
  obtain ⟨c, hc, hident⟩ := getElem?_of_matchKeyword (j := k - 1) hkw h (by omega) (by omega)
  rw [hc, Option.any_some, hident] at hprev
  cases hprev (by omega)

/-- A reader passes a keyword without noticing. -/
lemma run_part_keyword (hkw : IsWord kw) (h : matchKeyword s i kw) (d : Int) :
    run ⟨.code, d⟩ (part s i (i + kw.length)) = ⟨.code, d⟩ := by
  rw [(part_of_matchKeyword hkw h).2.1]
  exact Cursor.run_plain hkw.plain d

/-- The first byte of a keyword is no bracket. -/
lemma depth_of_matchKeyword {c : Char} {d : Int} (hkw : IsWord kw)
    (h : matchKeyword s i kw) (hc : s[i]? = some c) (hd : d + nesting c = 0) : d = 0 := by
  obtain ⟨c', hc', hident⟩ := getElem?_of_matchKeyword hkw h (Nat.le_refl i)
    (Nat.lt_add_of_pos_right (length_pos_iff.2 hkw.1))
  obtain rfl := Option.some.inj (hc.symm.trans hc')
  rwa [(plain_of_isIdentByte hident).2, Int.add_zero] at hd

lemma indexTopLevelKeyword_spec (hkw : IsWord kw) (h : indexTopLevelKeyword s kw start = some i) :
    start ≤ i ∧ matchKeyword s i kw ∧ run ⟨.code, 0⟩ (part s start i) = ⟨.code, 0⟩ := by
  obtain ⟨hle, -, c, d, hc, hrun, hcond⟩ :=
    scan_if (p := fun i _ d => d == 0 && matchKeyword s i kw) (Nat.le_refl _) h
  rw [Bool.and_eq_true, beq_iff_eq] at hcond
  obtain ⟨hd, hmatch⟩ := hcond
  exact ⟨hle, hmatch, by rw [hrun, depth_of_matchKeyword hkw hmatch hc hd]⟩

/-- The first bytes of a keyword are plain. -/
lemma plain_of_matchKeyword {n : Nat} (hkw : IsWord kw) (h : matchKeyword s i kw)
    (hn : n ≤ kw.length) : ∀ x ∈ part s (i + 1) (i + n), Plain x := by
  intro x hx
  refine hkw.plain x ?_
  rw [← (part_of_matchKeyword hkw h).2.1]
  exact part_subset (Nat.le_succ i) (Nat.add_le_add_left hn i) hx

lemma leftOperandStart_spec (hkw : IsWord kw) (hk : matchKeyword s k kw) :
    leftOperandStart s k ≤ k ∧ Border s (leftOperandStart s k) ∧
      run ⟨.code, 0⟩ (part s 0 (leftOperandStart s k)) = ⟨.code, 0⟩ := by
  have hlimit : k ≤ s.length := (Nat.le_add_right _ _).trans (part_of_matchKeyword hkw hk).1
  unfold leftOperandStart
  extract_lets visit
  refine scan_through (P := fun _ st => st ≤ k ∧ Border s st ∧
    run ⟨.code, 0⟩ (part s 0 st) = ⟨.code, 0⟩) (Q := fun _ => True)
    hlimit (Nat.zero_le k) (fun _ _ _ _ h => h) ?_ (by simp [Border])
  intro i c d st _ hik hc hrun hq hst
  have hconnective {word : Text} (hword : IsWord word) {n : Nat} (hn : n ≤ word.length)
      (h : (d + nesting c == 0 && matchKeyword s i word) = true) :
      (i + word.length ≤ k ∧ Border s (i + word.length) ∧
        run ⟨.code, 0⟩ (part s 0 (i + word.length)) = ⟨.code, 0⟩) ∧
      ∀ x ∈ part s (i + 1) (i + n), Plain x := by
    rw [Bool.and_eq_true, beq_iff_eq] at h
    refine ⟨⟨le_of_matchKeyword hword hkw h.2 hk hik, (border_of_matchKeyword hword h.2).2, ?_⟩,
      plain_of_matchKeyword hword h.2 hn⟩
    rw [← part_append (Nat.zero_le i) (Nat.le_add_right i _), run_append, hrun,
      depth_of_matchKeyword hword h.2 hc h.1,
      run_part_keyword hword h.2]
  simp only [visit]
  split
  · exact ⟨hst, by simp⟩
  split
  · rename_i hcomma
    rw [Bool.and_eq_true, beq_iff_eq, beq_iff_eq] at hcomma
    refine ⟨⟨hik, fun _ hident => ?_, ?_⟩, by simp⟩
    · rw [Nat.add_sub_cancel, hc, hcomma.2] at hident
      cases hident
    · rw [part_succ (Nat.zero_le i) hc, run_append, hrun, run_cons, Cursor.run_nil,
        step_code hq, hcomma.1]
  split
  · rename_i hor
    exact hconnective isWord_or (Nat.le_refl 2) hor
  split
  · rename_i hand
    exact hconnective isWord_and (Nat.le_succ 2) hand
  · exact ⟨hst, by simp⟩

/-- The end of an operand: the end of the text, or a byte that a reader finds at the
depth where it began. -/
lemma rightOperandEnd_spec (hstart : start ≤ s.length) : start ≤ rightOperandEnd s start ∧
    rightOperandEnd s start ≤ s.length ∧ Border s (rightOperandEnd s start) ∧
    (rightOperandEnd s start = s.length ∨
      run ⟨.code, 0⟩ (part s start (rightOperandEnd s start)) = ⟨.code, 0⟩) := by
  unfold rightOperandEnd
  extract_lets visit
  cases hscan : (scan visit s start s.length ()).getLeft? with
  | none => exact ⟨hstart, Nat.le_refl _, fun _ _ => by simp, .inl rfl⟩
  | some i =>
    have hvisit : ∀ i c d, visit i c d () = .stop i ∨ visit i c d () = .next 1 () := by
      intro i c d
      simp only [visit]
      split_ifs <;> simp
    obtain ⟨hle, hlt, c, d, hc, hrun, hv⟩ := scan_some (Nat.le_refl _) hscan hvisit
    suffices h : d = 0 ∧ Border s i from
      ⟨hle, hlt.le, h.2, .inr (by rw [Option.getD_some, hrun, h.1])⟩
    have hbyte (hident : isIdentByte c = false) : Border s i := fun _ _ => by
      rw [hc, Option.any_some, hident]
    simp only [visit] at hv
    split at hv
    · rename_i hclose
      rw [Bool.and_eq_true, beq_iff_eq] at hclose
      have := nesting_of_isClose hclose.1
      refine ⟨by omega, hbyte ?_⟩
      rcases isClose_iff.1 hclose.1 with rfl | rfl | rfl <;> rfl
    split at hv
    · rename_i hcomma
      rw [Bool.and_eq_true, beq_iff_eq, beq_iff_eq] at hcomma
      obtain ⟨hd, rfl⟩ := hcomma
      exact ⟨(Int.add_zero d).symm.trans hd, hbyte rfl⟩
    split at hv
    · rename_i hword
      rw [Bool.and_eq_true, beq_iff_eq, Bool.or_eq_true] at hword
      rcases hword with ⟨hd, h | h⟩
      · exact ⟨depth_of_matchKeyword isWord_and h hc hd, (border_of_matchKeyword isWord_and h).1⟩
      · exact ⟨depth_of_matchKeyword isWord_or h hc hd, (border_of_matchKeyword isWord_or h).1⟩
    · cases hv

/-- The call that is found: its name, and the bracket behind it. -/
lemma indexCallLoop_spec {name : Text} {rounds : Nat}
    (h : indexCallLoop s name rounds start = some i) (hname : IsWord name) :
    start ≤ i ∧ matchKeyword s i name ∧ callFollows s (i + name.length) := by
  induction rounds generalizing start with
  | zero => cases h
  | succ rounds ih =>
    rw [indexCallLoop] at h
    split at h
    · cases h
    rename_i idx hidx
    obtain ⟨hle, hmatch, -⟩ := indexTopLevelKeyword_spec hname hidx
    split at h
    · rename_i hcall
      cases h
      exact ⟨hle, hmatch, hcall⟩
    · obtain ⟨hle', hrest⟩ := ih h
      exact ⟨by omega, hrest⟩

end Keyword

/-! ## Groups -/

section Group

variable {s : Text} {i j start : Nat}

/-- A group that is closed: its brackets, and what a reader makes of its inside. -/
lemma matchGroupEnd_spec {c : Char} (hc : s[i]? = some c) (hopen : isOpen c)
    (h : matchGroupEnd s i = some j) : i < j ∧ j < s.length ∧ (∃ e, s[j]? = some e ∧ isClose e) ∧
      run ⟨.code, 0⟩ (part s (i + 1) j) = ⟨.code, 0⟩ := by
  obtain ⟨hle, hlt, e, d, he, hrun, hcond⟩ :=
    scan_if (p := fun _ c d => isClose c && d == 0) (Nat.le_refl _) h
  rw [Bool.and_eq_true, beq_iff_eq] at hcond
  obtain ⟨hclose, hd⟩ := hcond
  have hne : i ≠ j := by
    rintro rfl
    obtain rfl := Option.some.inj (hc.symm.trans he)
    have h₁ := nesting_of_isOpen hopen
    have h₂ := nesting_of_isClose hclose
    omega
  have hij : i < j := by omega
  refine ⟨hij, hlt, ⟨e, he, hclose⟩, ?_⟩
  have hq : (c == '"') = false := by
    rcases isOpen_iff.1 hopen with rfl | rfl | rfl <;> rfl
  have hd1 : d = 0 + 1 := by
    have := nesting_of_isClose hclose
    omega
  rw [part_cons hij hc, run_cons, step_code hq, nesting_of_isOpen hopen,
    Cursor.run_shift, hd1, Cursor.mk.injEq] at hrun
  obtain ⟨hreading, hdepth⟩ := hrun
  cases hin : run ⟨.code, 0⟩ (part s (i + 1) j) with
  | mk st k =>
    rw [hin] at hreading hdepth
    simp only [Cursor.mk.injEq]
    exact ⟨hreading, (Int.add_left_inj 1).1 hdepth⟩

lemma le_skipWhile (p : Char → Bool) (s : Text) (i : Nat) : i ≤ skipWhile p s i :=
  Nat.le_add_right _ _

lemma skipWhile_le {p : Char → Bool} (hi : i ≤ s.length) : skipWhile p s i ≤ s.length := by
  have h := (takeWhile_sublist p (l := s.drop i)).length_le
  rw [length_drop] at h
  rw [skipWhile]
  omega

/-- The bracket of a call that follows. -/
lemma getElem?_of_callFollows (h : callFollows s i) :
    s[skipWhile isBlankByte s i]? = some '(' := by simpa [callFollows] using h

lemma indexTopLevelComma_spec (h : indexTopLevelComma s = some i) :
    s[i]? = some ',' := by
  obtain ⟨-, -, c, d, hc, -, hcond⟩ :=
    scan_if (p := fun _ c d => d == 0 && c == ',') (Nat.le_refl _) h
  rw [Bool.and_eq_true, beq_iff_eq, beq_iff_eq] at hcond
  rw [hc, hcond.2]

lemma firstTwoSlotBracket_spec (h : firstTwoSlotBracket s = some i) : s[i]? = some '[' ∧
    ∃ close commaIdx, matchGroupEnd s i = some close ∧
      indexTopLevelComma (part s (i + 1) close) = some commaIdx := by
  unfold firstTwoSlotBracket at h
  extract_lets visit at h
  obtain ⟨-, -, c, d, hc, -, hv⟩ := scan_some (Nat.le_refl _) h fun i c d => by
    simp only [visit]
    split
    · split
      · split
        · exact .inl rfl
        · exact .inr rfl
      · exact .inr rfl
    · exact .inr rfl
  simp only [visit] at hv
  split at hv
  · rename_i hcond
    rw [Bool.and_eq_true, beq_iff_eq] at hcond
    obtain ⟨rfl, -⟩ := hcond
    split at hv
    · rename_i close hclose
      split at hv
      · rename_i hcomma
        rw [Bool.and_eq_true] at hcomma
        obtain ⟨commaIdx, hidx⟩ := Option.isSome_iff_exists.1 hcomma.2
        exact ⟨hc, close, commaIdx, hclose, hidx⟩
      · cases hv
    · cases hv
  · cases hv

/-- A search that answers with the end of the text when it finds nothing. -/
lemma getD_scan_bounds {visit : Nat → Char → Int → Unit → Step Unit Nat} (hstart : start ≤ s.length)
    (hvisit : ∀ i c d, visit i c d () = .stop i ∨ visit i c d () = .next 1 ()) :
    start ≤ (scan visit s start s.length ()).getLeft?.getD s.length ∧
      (scan visit s start s.length ()).getLeft?.getD s.length ≤ s.length := by
  cases hscan : (scan visit s start s.length ()).getLeft? with
  | none => exact ⟨hstart, Nat.le_refl _⟩
  | some i =>
    obtain ⟨hle, hlt, -⟩ := scan_some (Nat.le_refl _) hscan hvisit
    exact ⟨hle, hlt.le⟩

lemma funcBodyEnd_bounds (hstart : start ≤ s.length) :
    start ≤ funcBodyEnd s start ∧ funcBodyEnd s start ≤ s.length := by
  refine getD_scan_bounds hstart fun i c d => ?_
  split_ifs <;> simp

/-- What `closeAt` finds in the rest of a text. -/
lemma closeAt_spec_from {o e : Char} {t : Text} (rest a : Text) (skip depth : Nat)
    (ht : t = a ++ rest) (hskip : skip < rest.length → Closed (a ++ rest.take skip))
    (hover : rest.length < skip → skip = rest.length + 1 ∧ Reading.code.after t = .escape) :
    (t.length < closeAt o e rest skip depth a.length → Reading.code.after t = .escape) ∧
    (closeAt o e rest skip depth a.length < t.length →
      t[closeAt o e rest skip depth a.length]? = some e ∧
        Closed (t.take (closeAt o e rest skip depth a.length))) := by
  induction rest generalizing a skip depth with
  | nil =>
    rw [append_nil] at ht
    subst ht
    rw [closeAt]
    cases skip with
    | zero => simp
    | succ skip =>
      obtain ⟨hone, hesc⟩ := hover (Nat.succ_pos skip)
      rw [hone]
      exact ⟨fun _ => hesc, fun h => absurd h (by simp)⟩
  | cons c rest ih =>
    have hlen : a.length + 1 = (a ++ [c]).length := by simp
    have ht' : t = (a ++ [c]) ++ rest := by simp [ht]
    cases skip with
    | succ skip =>
      rw [closeAt, hlen]
      refine ih _ _ _ ht' (fun h => ?_) (fun h => ?_)
      · have := hskip (by simpa using h)
        rwa [take_succ_cons, ← singleton_append, ← append_assoc] at this
      · obtain ⟨hone, hesc⟩ := hover (by simpa using h)
        exact ⟨by simpa using hone, hesc⟩
    | zero =>
      have ha : Closed a := by simpa using hskip (by simp)
      have hplain (hc : (c == '"') = false) (depth : Nat) :=
        ih (a ++ [c]) 0 depth ht' (fun _ => by simpa using closed_concat ha hc) (by simp)
      rw [closeAt]
      split
      · -- a string literal is passed as a whole
        rename_i hq
        have hopen : Reading.code.after (a ++ [c]) = inLiteral false := by
          rw [ha.after_append, eq_of_beq hq]
          rfl
        rw [hlen]
        refine ih _ _ _ ht' (fun h => ?_) (fun h => ?_)
        · have hlit := congrArg Cursor.reading (Cursor.run_take_skipBody h 0)
          rw [Cursor.reading_run] at hlit
          rw [Closed, Reading.after_append, hopen]
          exact hlit
        · refine ⟨Nat.le_antisymm (skipBody_le false rest) h, ?_⟩
          rw [ht', Reading.after_append, hopen]
          exact after_eq_escape h
      rename_i hq
      have hq : (c == '"') = false := by simpa using hq
      split
      · rw [hlen]
        exact hplain hq _
      split
      · rename_i hce
        split
        · refine ⟨fun h => absurd h (by simp [ht]), fun _ => ⟨?_, ?_⟩⟩
          · rw [ht, getElem?_append_right (Nat.le_refl _), Nat.sub_self, eq_of_beq hce]
            rfl
          · rwa [ht, take_left]
        · rw [hlen]
          exact hplain hq _
      · rw [hlen]
        exact hplain hq _

end Group

/-! ## Sequences -/

section Sequence

variable {s : Text} {i colon start : Nat}

lemma seqOperandRight_bounds (hstart : start ≤ s.length) :
    start ≤ seqOperandRight s start ∧ seqOperandRight s start ≤ s.length := by
  refine getD_scan_bounds hstart fun i c d => ?_
  split_ifs <;> simp

lemma firstSequenceColon_spec (h : firstSequenceColon s = some i) : s[i]? = some ':' := by
  unfold firstSequenceColon at h
  extract_lets visit at h
  have hrule : (scan visit s 0 s.length []).elim (fun i => s[i]? = some ':') fun _ => True := by
    refine scan_rule (P := fun _ _ => True) (Nat.le_refl _) (Nat.zero_le _)
      (fun _ _ _ _ _ => trivial) ?_ trivial
    intro i c d stack _ _ hc _ _ _
    simp only [visit]
    split
    · exact ⟨trivial, by simp⟩
    split
    · exact ⟨trivial, by simp⟩
    split
    · rename_i hcolon
      rw [Bool.and_eq_true, beq_iff_eq] at hcolon
      obtain ⟨rfl, -⟩ := hcolon
      exact hc
    · exact ⟨trivial, by simp⟩
  rw [Sum.getLeft?_eq_some_iff.1 h] at hrule
  exact hrule

lemma seqGroupStart_le (hcolon : colon ≤ s.length) : seqGroupStart s colon ≤ colon := by
  unfold seqGroupStart
  extract_lets visit
  have hopen (f : Empty → List Nat) : ∀ i ∈ (scan visit s 0 colon []).elim f id, i < colon := by
    refine scan_through (P := fun _ stack => ∀ i ∈ stack, i < colon) (Q := fun _ => True)
      hcolon (Nat.zero_le _) (fun _ _ _ _ h => h) ?_ (by simp)
    intro i c d stack _ hi _ _ _ hstack
    simp only [visit]
    split
    · exact ⟨forall_mem_cons.2 ⟨hi, hstack⟩, by simp⟩
    split
    · exact ⟨fun i hi => hstack i (mem_of_mem_tail hi), by simp⟩
    · exact ⟨hstack, by simp⟩
  split
  · exact Nat.zero_le _
  · rename_i i stack heq
    have hi : i ∈ i :: stack := mem_cons_self
    rw [← heq] at hi
    exact hopen _ i hi

/-- A keyword that ends an operand does not reach past a byte of no word. -/
lemma seqKeywordAt_spec {n : Nat} (hcolon : s[colon]? = some ':') (hi : i < colon)
    (h : seqKeywordAt s i = some n) :
    i + n ≤ colon ∧ ∀ x ∈ part s (i + 1) (i + n), Plain x := by
  obtain ⟨kw, hfind, rfl⟩ := Option.map_eq_some_iff.1 h
  have hall : ∀ kw ∈ seqBoundaryKeywords, (Item.word kw).ok = true := by decide
  have hkw := isWord_of_ok (hall kw (mem_of_find?_eq_some hfind))
  have hmatch := find?_some hfind
  refine ⟨?_, plain_of_matchKeyword hkw hmatch (Nat.le_refl _)⟩
  by_contra hlt
  obtain ⟨c, hc, hident⟩ := getElem?_of_matchKeyword (j := colon) hkw hmatch hi.le (by omega)
  obtain rfl := Option.some.inj (hc.symm.trans hcolon)
  exact absurd hident (by decide)

lemma seqOperandLeft_le (hcolon : s[colon]? = some ':') : seqOperandLeft s colon ≤ colon := by
  have hlt : colon < s.length := (List.getElem?_eq_some_iff.1 hcolon).1
  unfold seqOperandLeft
  extract_lets visit
  refine scan_through (P := fun _ st => st ≤ colon) (Q := fun _ => True)
    hlt.le (seqGroupStart_le hlt.le)
    (fun _ _ _ _ h => h) ?_ (seqGroupStart_le hlt.le)
  intro i c d st _ hi hc _ _ hst
  simp only [visit]
  split
  · exact ⟨hst, by simp⟩
  split
  · exact ⟨hi, by simp⟩
  split
  · refine ⟨?_, by simp⟩
    split
    · rename_i heq
      rw [Bool.and_eq_true, decide_eq_true_eq] at heq
      exact heq.1
    · exact hi
  split
  · split
    · rename_i k hk
      exact seqKeywordAt_spec hcolon hi hk
    · exact ⟨hst, by simp⟩
  · exact ⟨hst, by simp⟩

end Sequence

end Blkit
