import Blkit.Normalise.Bounds
import Blkit.Normalise.Passes
import Blkit.Text.Tidy

/-!
# Rounds

A pass that repeats until nothing changes replaces, in every round, the bytes between
two indices.  Here is what a round of each pass does whatever the text is: all its
slices are in range, a byte that stands in what it replaces gets rarer, and the text
does not end in a backslash when it did not before.  For the sequence colons that byte
is the colon, for inline functions the `t` of `function`, for two-slot brackets the
opening bracket, for `instance of` the `o` and for `isDefined` the `D`.
-/

namespace Blkit

open Fallible List

/-! ## Replacing a part -/

/-- The text with the bytes between two indices replaced. -/
def splice (s : Text) (i j : Nat) (repl : Text) : Text := part s 0 i ++ repl ++ part s j s.length

/-- What a round has done to a text: the byte is rarer, and the end is as tidy. -/
structure Rarer (x : Char) (s s' : Text) : Prop where
  count_lt : s'.count x < s.count x
  tidy : Tidy s → Tidy s'

section Splice

variable {s repl : Text} {i j : Nat} {x c : Char}

lemma tidy_splice (hc : repl.getLast? = some c) (hink : isInk c) (hne : c ≠ '\\')
    (h : Tidy s) (i j : Nat) : Tidy (splice s i j repl) := by
  obtain ⟨w, rfl⟩ := getLast?_eq_some_iff.1 hc
  have hsuffix : Tidy (part s j s.length) := by
    rw [part, take_length]
    rw [← take_append_drop j s] at h
    exact h.right
  have heq : splice s i j (w ++ [c]) = (part s 0 i ++ w) ++ c :: part s j s.length := by
    simp [splice]
  rw [heq]
  exact tidy_append_cons hink hne hsuffix

lemma rarer_splice (hij : i ≤ j) (hj : j ≤ s.length) (hcount : repl.count x < (part s i j).count x)
    (hlast : repl.getLast? = some ')') : Rarer x s (splice s i j repl) where
  count_lt := by
    conv_rhs => rw [← part_append_part_append_part hij hj]
    simp only [splice, count_append]
    omega
  tidy h := tidy_splice hlast rfl (by decide) h i j

lemma count_part_add {k : Nat} (x : Char) (hij : i ≤ j) (hjk : j ≤ k) :
    (part s i k).count x = (part s i j).count x + (part s j k).count x := by
  rw [← part_append hij hjk, count_append]

lemma getLast?_append_literal (w : Text) {t : Text} (ht : t.getLast? = some c) :
    (w ++ t).getLast? = some c := by
  rw [getLast?_append, ht, Option.some_or]

lemma trimSpace_isInfix (t : Text) : trimSpace t <:+: t := by
  obtain ⟨p, q, ht, -, -⟩ := exists_eq_append_trimSpace t
  exact ⟨p, q, ht.symm⟩

lemma count_trimSpace_le (x : Char) (t : Text) : (trimSpace t).count x ≤ t.count x :=
  (trimSpace_isInfix t).sublist.count_le x

end Splice

/-! ## Sequences -/

section Sequence

variable {s : Text} {i j : Nat}

lemma skipBlanksBefore_bounds (hij : i ≤ j) (hj : j ≤ s.length) :
    i ≤ skipBlanksBefore s i j ∧ skipBlanksBefore s i j ≤ j := by
  have h := (takeWhile_sublist isBlankByte (l := part s i j)).length_le
  rw [length_part hj] at h
  have heq : skipBlanksBefore s i j = i + ((part s i j).takeWhile isBlankByte).length := rfl
  omega

lemma skipBlanksBack_bounds (hij : i ≤ j) (hj : j ≤ s.length) :
    i ≤ skipBlanksBack s j i ∧ skipBlanksBack s j i ≤ j := by
  have h := (takeWhile_sublist isBlankByte (l := (part s i j).reverse)).length_le
  rw [length_reverse, length_part hj] at h
  have heq : skipBlanksBack s j i = j - ((part s i j).reverse.takeWhile isBlankByte).length := rfl
  omega

lemma sequenceRound_returns (s : Text) :
    Returns (sequenceRound s) (Sum.elim (· = s) (Rarer ':' s)) := by
  rw [sequenceRound]
  cases hcolon : firstSequenceColon s with
  | none => exact Returns.pure rfl
  | some colon =>
    have hat := firstSequenceColon_spec hcolon
    have hlt : colon < s.length := (List.getElem?_eq_some_iff.1 hat).1
    obtain ⟨-, hls⟩ := skipBlanksBefore_bounds (seqOperandLeft_le hat) hlt.le
    obtain ⟨hre, hre'⟩ := seqOperandRight_bounds (show colon + 1 ≤ s.length from hlt)
    obtain ⟨hre₁, hre₂⟩ := skipBlanksBack_bounds hre hre'
    dsimp only
    generalize skipBlanksBefore s (seqOperandLeft s colon) colon = ls at *
    generalize skipBlanksBack s (seqOperandRight s (colon + 1)) (colon + 1) = re at *
    have hlen : re ≤ s.length := hre₂.trans hre'
    simp (disch := omega) only [slice_eq_ok, ok_bind]
    split
    · exact Returns.pure rfl
    have hregion : part s ls re = part s ls colon ++ ':' :: part s (colon + 1) re := by
      rw [← part_append hls (Nat.le_of_succ_le hre₁), part_cons hre₁ hat]
    refine Returns.pure (rarer_splice (hls.trans (Nat.le_of_succ_le hre₁)) hlen ?_
      (getLast?_append_literal _ rfl))
    have hleft := count_trimSpace_le ':' (part s ls colon)
    have hright := count_trimSpace_le ':' (part s (colon + 1) re)
    have hliteral : "seq(".toList.count ':' = 0 ∧ ", ".toList.count ':' = 0 ∧
      ", 1)".toList.count ':' = 0 := by decide
    rw [hregion]
    simp only [count_append, count_cons_self, hliteral]
    omega

end Sequence

/-! ## Inline functions -/

section InlineFunction

variable {s : Text} {i : Nat}

/-- The bytes that `escapeStringLiteral` adds are only these. -/
lemma count_escapeLoop_le {x : Char} (hx : x ∉ ['\\', '\xef', '\xbf', '\xbd']) (t : Text)
    (skip : Nat) : (escapeLoop t skip).count x ≤ t.count x := by
  simp only [mem_cons, not_mem_nil, or_false, not_or, ← ne_eq] at hx
  obtain ⟨h₁, h₂, h₃, h₄⟩ := hx
  induction t generalizing skip with
  | nil => simp [escapeLoop]
  | cons c t ih =>
    cases skip with
    | succ skip =>
      rw [escapeLoop, count_cons, count_cons]
      exact Nat.add_le_add_right (ih skip) _
    | zero =>
      rw [escapeLoop]
      split
      · rw [count_cons_of_ne h₁.symm, count_cons, count_cons]
        exact Nat.add_le_add_right (ih 0) _
      split
      · rw [count_cons_of_ne h₂.symm, count_cons_of_ne h₃.symm, count_cons_of_ne h₄.symm]
        exact (ih 0).trans count_le_count_cons
      · rw [count_cons, count_cons]
        exact Nat.add_le_add_right (ih _) _

/-- A call that is found: where its brackets are, and what is in it. -/
lemma call_region {name : Text} {k close : Nat} (hname : IsWord name) (hk : name.length = k)
    (hmatch : matchKeyword s i name) (hcall : callFollows s (i + k))
    (hclose : matchGroupEnd s (skipWhile isBlankByte s (i + k)) = some close) :
    i < skipWhile isBlankByte s (i + k) + 1 ∧ skipWhile isBlankByte s (i + k) + 1 ≤ close ∧
    close + 1 ≤ s.length ∧
    ∀ x, name.count x + (part s (skipWhile isBlankByte s (i + k) + 1) close).count x ≤
      (part s i (close + 1)).count x := by
  obtain ⟨hlt, hlen, -⟩ := matchGroupEnd_spec (getElem?_of_callFollows hcall) rfl hclose
  obtain ⟨-, hpart, -⟩ := part_of_matchKeyword hname hmatch
  rw [hk] at hpart
  have hle := le_skipWhile isBlankByte s (i + k)
  generalize skipWhile isBlankByte s (i + k) = j at *
  refine ⟨by omega, hlt, hlen, fun x => ?_⟩
  have hbegin := @count_part_add s i (i + k) (close + 1) x (by omega) (by omega)
  have hgroup := @count_part_add s (i + k) (j + 1) (close + 1) x (by omega) (by omega)
  have hinner := @count_part_add s (j + 1) close (close + 1) x hlt (by omega)
  rw [hpart] at hbegin
  omega

lemma inlineFunctionRound_returns (s : Text) :
    Returns (inlineFunctionRound s) (Sum.elim (· = s) (Rarer 't' s)) := by
  rw [inlineFunctionRound]
  cases hidx : findKeywordCall s "function".toList 0 with
  | none => exact Returns.pure rfl
  | some idx =>
    obtain ⟨-, -, _, _, -, -, hcond⟩ :=
      scan_if (p := fun i _ _ => matchKeyword s i "function".toList && callFollows s (i + 8))
      (Nat.le_refl _) hidx
    obtain ⟨hmatch, hcall⟩ := (Bool.and_eq_true _ _).mp hcond
    dsimp only
    cases hclose : matchGroupEnd s (skipWhile isBlankByte s (idx + 8)) with
    | none => exact Returns.pure rfl
    | some paramClose =>
      obtain ⟨hstart, hlt, hlen, hcount⟩ := call_region (k := 8) (isWord_of_ok rfl) rfl hmatch
        hcall hclose
      obtain ⟨hbody, hbody'⟩ := funcBodyEnd_bounds hlen
      dsimp only
      generalize skipWhile isBlankByte s (idx + 8) = start at *
      generalize funcBodyEnd s (paramClose + 1) = bodyEnd at *
      simp (disch := omega) only [slice_eq_ok, ok_bind]
      split
      · exact Returns.pure rfl
      refine Returns.pure (rarer_splice (by omega) hbody' ?_ (getLast?_append_literal _ rfl))
      have hparams := count_trimSpace_le 't' (part s (start + 1) paramClose)
      have hesc := count_escapeLoop_le (x := 't') (by decide)
        (trimSpace (part s (paramClose + 1) bodyEnd)) 0
      have htrim := count_trimSpace_le 't' (part s (paramClose + 1) bodyEnd)
      have hall := @count_part_add s idx (paramClose + 1) bodyEnd 't' (by omega) hbody
      have hliteral : "__mkfunc(\"".toList.count 't' = 0 ∧ "\", \"".toList.count 't' = 0 ∧
        "\")".toList.count 't' = 0 ∧ "function".toList.count 't' = 1 := by decide
      have hregion := hcount 't'
      simp only [count_append, hliteral, escapeStringLiteral] at hregion ⊢
      omega

end InlineFunction

/-! ## Two-slot brackets -/

/-- A round of `lowerTableIndex`, when the recursive calls do what they should on texts
with fewer brackets. -/
lemma tableIndexRound_halts {lower : Nat → Text → Run Text} {s : Text}
    (hlower : ∀ t : Text, t.count '[' < s.count '[' →
      Halts (fun n => lower n t) fun r => r.count '[' ≤ t.count '[') :
    Halts (fun n => tableIndexRound (lower n) s) (Sum.elim (· = s) (Rarer '[' s)) := by
  unfold tableIndexRound
  cases hbracket : firstTwoSlotBracket s with
  | none => exact Halts.pure rfl
  | some bracket =>
    obtain ⟨hopen, close, commaIdx, hclose, hcomma⟩ := firstTwoSlotBracket_spec hbracket
    obtain ⟨hlt, hlen, ⟨e, he, -⟩, -⟩ := matchGroupEnd_spec hopen rfl hclose
    have hat := indexTopLevelComma_spec hcomma
    have hrecv : scanReceiverStart s bracket ≤ bracket := Nat.sub_le _ _
    have hci : commaIdx < (part s (bracket + 1) close).length := (List.getElem?_eq_some_iff.1 hat).1
    simp (disch := omega) only [hclose, slice_eq_ok, ok_bind, hcomma]
    generalize scanReceiverStart s bracket = recvStart at *
    have hregion := @count_part_add s recvStart bracket (close + 1) '[' hrecv (by omega)
    have hgroup := @count_part_add s bracket close (close + 1) '[' hlt.le (by omega)
    rw [part_cons hlt hopen, count_cons_self] at hgroup
    have hall := @count_part_add s 0 recvStart s.length '[' (by omega) (by omega)
    have hall' := @count_part_add s recvStart (close + 1) s.length '[' (by omega) (by omega)
    rw [part_zero_length] at hall
    have hslots :=
      @count_part_add (part s (bracket + 1) close) 0 commaIdx _ '[' (Nat.zero_le _) hci.le
    have hslots' := @count_part_add (part s (bracket + 1) close) commaIdx (commaIdx + 1) _ '['
      (Nat.le_succ _) hci
    rw [part_zero_length] at hslots
    generalize part s (bracket + 1) close = inner at *
    have hfirst := count_trimSpace_le '[' (part inner 0 commaIdx)
    have hsecond := count_trimSpace_le '[' (part inner (commaIdx + 1) inner.length)
    refine (hlower _ (by omega)).bind fun recv hcount => ?_
    have hliteral : "tableCols(".toList.count '[' = 0 ∧ "tableIndex(".toList.count '[' = 0 ∧
      ", ".toList.count '[' = 0 ∧ ")".toList.count '[' = 0 := by decide
    have hdone (repl : Text) (hrepl : repl.count '[' < (part s recvStart (close + 1)).count '[')
        (hlast : repl.getLast? = some ')') : Rarer '[' s (splice s recvStart (close + 1) repl) :=
      rarer_splice (by omega) hlen hrepl hlast
    split
    · refine (hlower _ (by omega)).bind fun col hcol => ?_
      refine Halts.pure (hdone _ ?_ (getLast?_append_literal _ rfl))
      simp only [count_append, hliteral]
      omega
    · refine (hlower _ (by omega)).bind fun row hrow =>
        (hlower _ (by omega)).bind fun col hcol => ?_
      refine Halts.pure (hdone _ ?_ (getLast?_append_literal _ rfl))
      simp only [count_append, hliteral]
      omega

/-! ## `instance of` -/

lemma isWord_instance : IsWord "instance".toList := isWord_of_ok rfl

lemma isWord_of : IsWord "of".toList := isWord_of_ok rfl

lemma instanceOfRound_returns (s : Text) :
    Returns (instanceOfRound s) (Sum.elim (· = s) (Rarer 'o' s)) := by
  rw [instanceOfRound]
  cases hidx : indexTopLevelKeyword s "instance".toList 0 with
  | none => exact Returns.pure rfl
  | some idx =>
    obtain ⟨-, hmatch, -⟩ := indexTopLevelKeyword_spec isWord_instance hidx
    dsimp only
    cases hof : indexTopLevelKeyword s "of".toList (idx + 8) with
    | none => exact Returns.pure rfl
    | some ofIdx =>
      obtain ⟨hle, hmatch', -⟩ := indexTopLevelKeyword_spec isWord_of hof
      obtain ⟨hlen, hpart, -⟩ := part_of_matchKeyword isWord_of hmatch'
      obtain ⟨hleft, -⟩ := leftOperandStart_spec isWord_instance hmatch
      dsimp only
      split
      · exact Returns.pure rfl
      have htype := le_skipWhile isBlankByte s (ofIdx + 2)
      have htype' : skipWhile isBlankByte s (ofIdx + 2) ≤ s.length := skipWhile_le hlen
      generalize skipWhile isBlankByte s (ofIdx + 2) = tStart at *
      have hend := le_skipWhile isIdentByte s tStart
      have hend' : skipWhile isIdentByte s tStart ≤ s.length := skipWhile_le htype'
      generalize skipWhile isIdentByte s tStart = i at *
      generalize leftOperandStart s idx = leftStart at *
      simp (disch := omega) only [slice_eq_ok, ok_bind]
      split
      · exact Returns.pure rfl
      refine Returns.pure (rarer_splice (by omega) hend' ?_ (getLast?_append_literal _ rfl))
      have htrim := count_trimSpace_le 'o' (part s leftStart idx)
      have h₁ := @count_part_add s leftStart idx i 'o' hleft (by omega)
      have h₂ := @count_part_add s idx ofIdx i 'o' (by omega) (by omega)
      have h₃ := @count_part_add s ofIdx (ofIdx + 2) i 'o' (by omega) (by omega)
      have h₄ := @count_part_add s (ofIdx + 2) tStart i 'o' htype hend
      have hliteral : "__instanceOf(".toList.count 'o' = 0 ∧ ", \"".toList.count 'o' = 0 ∧
        "\")".toList.count 'o' = 0 ∧ "of".toList.count 'o' = 1 := by decide
      rw [show part s ofIdx (ofIdx + 2) = "of".toList from hpart] at h₃
      simp only [count_append, hliteral] at h₃ ⊢
      omega

/-! ## `isDefined` -/

lemma isWord_isDefined : IsWord "isDefined".toList := isWord_of_ok rfl

lemma splitTrailingKey_returns (x : Char) (arg : Text) : Returns (splitTrailingKey arg) fun key =>
    ∀ parent leaf, key = some (parent, leaf) → parent.count x + leaf.count x ≤ arg.count x := by
  rw [splitTrailingKey]
  cases hback : arg.reverse.findIdx? (· == '.') with
  | none => exact Returns.pure nofun
  | some back =>
    have hlt : back < arg.length := by
      simpa using (findIdx?_eq_some_iff_getElem.1 hback).1
    dsimp only
    split
    · exact Returns.pure nofun
    have hdot : arg.length - 1 - back + 1 ≤ arg.length := by omega
    generalize arg.length - 1 - back = dot at *
    simp (disch := omega) only [slice_eq_ok, ok_bind]
    split
    · exact Returns.pure nofun
    refine Returns.pure fun parent leaf h => ?_
    cases h
    have h₁ := count_trimSpace_le x (part arg 0 dot)
    have h₂ := count_trimSpace_le x (part arg (dot + 1) arg.length)
    have h₃ := @count_part_add arg 0 dot _ x (Nat.zero_le _) (Nat.le_of_succ_le hdot)
    have h₄ := @count_part_add arg dot (dot + 1) _ x (Nat.le_succ _) hdot
    rw [part_zero_length] at h₃
    omega

lemma isDefinedReplacement_returns (arg : Text) : Returns (isDefinedReplacement arg) fun repl =>
    repl.count 'D' ≤ arg.count 'D' ∧ (repl.isEmpty = false → repl.getLast? = some ')') := by
  rw [isDefinedReplacement]
  split
  · exact Returns.pure ⟨by simp, nofun⟩
  have hliteral : "__hasKey(".toList.count 'D' = 0 ∧ ", \"".toList.count 'D' = 0 ∧
    "\")".toList.count 'D' = 0 ∧ "__isBound(".toList.count 'D' = 0 ∧
    ")".toList.count 'D' = 0 := by decide
  refine (splitTrailingKey_returns 'D' arg).bind fun key hkey => ?_
  split
  · rename_i parent leaf
    have hcount := hkey parent leaf rfl
    refine Returns.pure ⟨?_, fun _ => getLast?_append_literal _ rfl⟩
    simp only [count_append, hliteral]
    omega
  · refine Returns.pure ⟨?_, fun _ => getLast?_append_literal _ rfl⟩
    simp only [count_append, hliteral]
    omega

lemma isDefinedRound_returns (s : Text) :
    Returns (isDefinedRound s) (Sum.elim (· = s) (Rarer 'D' s)) := by
  rw [isDefinedRound]
  cases hidx : indexTopLevelCall s "isDefined".toList with
  | none => exact Returns.pure rfl
  | some idx =>
    obtain ⟨-, hmatch, hcall⟩ := indexCallLoop_spec hidx isWord_isDefined
    dsimp only
    split
    · exact Returns.pure rfl
    cases hclose : matchGroupEnd s (skipWhile isBlankByte s (idx + 9)) with
    | none => exact Returns.pure rfl
    | some close =>
      obtain ⟨hstart, hlt, hlen, hcount⟩ := call_region (k := 9) isWord_isDefined rfl hmatch
        hcall hclose
      generalize skipWhile isBlankByte s (idx + 9) = j at *
      simp (disch := omega) only [slice_eq_ok, ok_bind]
      refine (isDefinedReplacement_returns _).bind fun repl hrepl => ?_
      split
      · exact Returns.pure rfl
      · rename_i hne
        refine Returns.pure (rarer_splice (by omega) hlen ?_ (hrepl.2 (by simpa using hne)))
        have hregion := hcount 'D'
        have harg := count_trimSpace_le 'D' (part s (j + 1) close)
        have hliteral : "isDefined".toList.count 'D' = 1 := by decide
        omega

end Blkit
