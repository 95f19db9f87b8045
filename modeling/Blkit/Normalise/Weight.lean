import Blkit.Normalise.Rounds
import Mathlib.Algebra.GroupWithZero.Nat
import Mathlib.Data.List.Infix

/-!
# The weight of a keyword

A round of `lowerBetween` copies its left operand, and with it whatever `between` stands
there.  The weight of a text is what gets smaller all the same: a `between` outside
string literals weighs `2 ^ k` when `k` more brackets have been closed than opened
before it, and nothing inside brackets.  The copies stand in one more bracket, and so
together they weigh what the operand did; the keyword of the round is gone.
-/

namespace Blkit

open Fallible List Cursor

section Weight

variable {kw : Text} {u : Cursor} {a b t : Text} {prev : Bool}

/-- The text begins with the word. -/
def startsWord (kw t : Text) : Bool := kw.isPrefixOf t && !(t.drop kw.length).head?.any isIdentByte

/-- What the occurrences of a word weigh, for a reader at `u`; `prev` tells whether the
byte before belongs to a word. -/
def keywordWeight (kw : Text) : (prev : Bool) → Cursor → Text → Nat
  | _, _, [] => 0
  | prev, u, c :: t =>
    (if !prev && startsWord kw (c :: t) && u.reading = .code && u.depth ≤ 0 then
      2 ^ (-u.depth).toNat else 0) + keywordWeight kw (isIdentByte c) (u.step c) t

/-- No word goes on from the one text to the other. -/
def Apart (a b : Text) : Prop := (a.getLast?.any isIdentByte && b.head?.any isIdentByte) = false

lemma apart_of_head (h : b.head?.any isIdentByte = false) : Apart a b := by
  rw [Apart, h, Bool.and_false]

lemma apart_of_getLast (h : a.getLast?.any isIdentByte = false) : Apart a b := by
  rw [Apart, h, Bool.false_and]

lemma startsWord_iff : startsWord kw t ↔
    t.take kw.length = kw ∧ (t.drop kw.length).head?.any isIdentByte = false := by
  rw [startsWord, Bool.and_eq_true, Bool.not_eq_true', isPrefixOf_iff_prefix,
    prefix_iff_eq_take, eq_comm]

/-- Whether a word stands in front does not depend on what comes after the next border. -/
lemma startsWord_append (hkw : IsWord kw) (ht : t ≠ []) (h : Apart t b) :
    startsWord kw (t ++ b) = startsWord kw t := by
  rw [Bool.eq_iff_iff, startsWord_iff, startsWord_iff]
  rcases Nat.lt_trichotomy kw.length t.length with hlt | heq | hlt
  · have hne : t.drop kw.length ≠ [] := by simpa using hlt
    rw [take_append_of_le_length hlt.le, drop_append_of_le_length hlt.le,
      head?_append_of_ne_nil _ hne]
  · rw [heq, take_left, drop_left, take_length, drop_length]
    refine and_congr_right fun hkt => ?_
    subst hkt
    have hlast : t.getLast?.any isIdentByte = true := by
      rw [getLast?_eq_some_getLast ht, Option.any_some]
      exact hkw.2 _ (getLast_mem ht)
    rw [Apart, hlast, Bool.true_and] at h
    simp [h]
  · -- the word would go on behind the border
    constructor
    · rintro ⟨htake, -⟩
      obtain ⟨n, hn⟩ := Nat.exists_eq_add_of_lt hlt
      have hsub : t ++ b.take (n + 1) = kw := by
        rw [← take_length_add_append, ← Nat.add_assoc, ← hn]
        exact htake
      have hlast : t.getLast?.any isIdentByte = true := by
        rw [getLast?_eq_some_getLast ht, Option.any_some]
        exact hkw.2 _ (by rw [← hsub]; exact mem_append_left _ (getLast_mem ht))
      cases b with
      | nil =>
        have := congrArg length hsub
        simp at this
        omega
      | cons c b =>
        have hc : isIdentByte c = true := hkw.2 c (by rw [← hsub]; simp)
        rw [Apart, hlast, head?_cons, Option.any_some, hc] at h
        cases h
    · rintro ⟨htake, -⟩
      have := congrArg length htake
      rw [length_take] at this
      omega

lemma keywordWeight_append (hkw : IsWord kw) (h : Apart a b) :
    keywordWeight kw prev u (a ++ b) = keywordWeight kw prev u a +
      keywordWeight kw (a.getLast?.elim prev isIdentByte) (u.run a) b := by
  induction a generalizing prev u with
  | nil => simp [keywordWeight]
  | cons c a ih =>
    have hstart := startsWord_append hkw (cons_ne_nil c a) h
    rw [cons_append] at hstart
    rw [cons_append, keywordWeight, keywordWeight, hstart, run_cons, Nat.add_assoc]
    congr 1
    cases a with
    | nil => simp [keywordWeight]
    | cons c' a =>
      rw [ih (by simpa [Apart] using h), getLast?_cons_cons,
        getLast?_eq_some_getLast (cons_ne_nil c' a)]
      rfl

/-- A word that begins with a byte of no word is none, whatever the byte before. -/
lemma keywordWeight_prev (hkw : IsWord kw) (h : prev → t.head?.any isIdentByte = false) :
    keywordWeight kw prev u t = keywordWeight kw false u t := by
  cases prev with
  | false => rfl
  | true =>
    cases t with
    | nil => rfl
    | cons c t =>
      have hc : isIdentByte c = false := h rfl
      have hstart : startsWord kw (c :: t) = false := by
        rw [Bool.eq_false_iff, ne_eq, startsWord_iff]
        rintro ⟨htake, -⟩
        cases hk : kw with
        | nil => exact hkw.1 hk
        | cons k kw =>
          rw [hk, length_cons, take_succ_cons] at htake
          have := hkw.2 k (by rw [hk]; exact mem_cons_self)
          rw [← (cons.inj htake).1, hc] at this
          cases this
      rw [keywordWeight, keywordWeight, hstart]
      simp

/-- The weight of two texts, one after the other. -/
lemma keywordWeight_split (hkw : IsWord kw) (h : Apart a b) : keywordWeight kw false u (a ++ b) =
      keywordWeight kw false u a + keywordWeight kw false (u.run a) b := by
  rw [keywordWeight_append hkw h]
  congr 1
  refine keywordWeight_prev hkw fun hlast => ?_
  rw [Apart, Bool.and_eq_false_iff] at h
  refine h.resolve_left ?_
  cases hl : a.getLast? with
  | none =>
    rw [hl] at hlast
    cases hlast
  | some c =>
    rw [hl] at hlast
    simpa using hlast

/-- In one more bracket, a text weighs at most half. -/
lemma two_mul_keywordWeight_le (st : Reading) (d : Int) :
    2 * keywordWeight kw prev ⟨st, d + 1⟩ t ≤ keywordWeight kw prev ⟨st, d⟩ t := by
  induction t generalizing prev st d with
  | nil => simp [keywordWeight]
  | cons c t ih =>
    have hstep : step ⟨st, d + 1⟩ c =
        ⟨(step ⟨st, d⟩ c).reading, (step ⟨st, d⟩ c).depth + 1⟩ := run_shift st d 1 [c]
    have hrest := @ih (isIdentByte c) (step ⟨st, d⟩ c).reading (step ⟨st, d⟩ c).depth
    rw [← hstep] at hrest
    rw [keywordWeight, keywordWeight, Nat.mul_add]
    refine Nat.add_le_add ?_ hrest
    split
    · rename_i hcond
      simp only [Bool.and_eq_true, decide_eq_true_eq] at hcond
      rw [if_pos (by simp only [Bool.and_eq_true, decide_eq_true_eq]; exact ⟨hcond.1, by omega⟩)]
      have hpow : (-d).toNat = (-(d + 1)).toNat + 1 := by omega
      rw [hpow, Nat.pow_succ, Nat.mul_comm]
    · exact Nat.zero_le _

/-- A text in which the word stands nowhere weighs nothing. -/
lemma keywordWeight_eq_zero (h : ∀ t' ∈ t.tails, startsWord kw t' = false) :
    keywordWeight kw prev u t = 0 := by
  induction t generalizing prev u with
  | nil => rfl
  | cons c t ih =>
    change ∀ t' ∈ (c :: t) :: t.tails, _ at h
    rw [forall_mem_cons] at h
    rw [keywordWeight, h.1, ih h.2]
    simp

/-- A text without a byte of a word weighs nothing. -/
lemma keywordWeight_of_isInk (hkw : IsWord kw) (h : ∀ c ∈ t, isInk c = false) :
    keywordWeight kw prev u t = 0 := by
  refine keywordWeight_eq_zero fun t' ht' => ?_
  rw [Bool.eq_false_iff, ne_eq, startsWord_iff]
  rintro ⟨htake, -⟩
  obtain ⟨c, hc⟩ := exists_mem_of_ne_nil kw hkw.1
  have hmem : c ∈ t := by
    rw [← htake] at hc
    exact ((mem_tails t' t).1 ht').subset (mem_of_mem_take hc)
  have := isInk_of_isIdentByte (hkw.2 c hc)
  rw [h c hmem] at this
  cases this

lemma plain_of_not_isInk {c : Char} (h : isInk c = false) : Plain c := by
  have hne {x : Char} (hx : isInk x = true) : c ≠ x := by
    rintro rfl
    rw [h] at hx
    cases hx
  refine ⟨beq_false_of_ne (hne rfl), ?_⟩
  simp [nesting, isOpen, isClose, hne (x := '(') rfl, hne (x := '[') rfl, hne (x := '\x7b') rfl,
    hne (x := ')') rfl, hne (x := ']') rfl, hne (x := '\x7d') rfl]

lemma isIdentByte_of_not_isInk {c : Char} (h : isInk c = false) : isIdentByte c = false := by
  rw [← Bool.not_eq_true]
  intro hident
  rw [isInk_of_isIdentByte hident] at h
  cases h

/-- Trimming does not change the weight. -/
lemma keywordWeight_trimSpace (hkw : IsWord kw) (d : Int) (t : Text) :
    keywordWeight kw false ⟨.code, d⟩ (trimSpace t) = keywordWeight kw false ⟨.code, d⟩ t := by
  obtain ⟨p, q, ht, hp, hq⟩ := exists_eq_append_trimSpace t
  have hfront : Apart p (trimSpace t ++ q) := apart_of_getLast <| by
    rw [← Bool.not_eq_true, Option.any_eq_true]
    rintro ⟨c, hc, hident⟩
    rw [isIdentByte_of_not_isInk (hp c (mem_of_getLast? hc))] at hident
    cases hident
  have hback : Apart (trimSpace t) q := apart_of_head <| by
    rw [← Bool.not_eq_true, Option.any_eq_true]
    rintro ⟨c, hc, hident⟩
    rw [isIdentByte_of_not_isInk (hq c (mem_of_head? hc))] at hident
    cases hident
  conv_rhs => rw [ht]
  rw [append_assoc, keywordWeight_split hkw hfront, keywordWeight_of_isInk hkw hp,
    run_plain fun c hc => plain_of_not_isInk (hp c hc), keywordWeight_split hkw hback,
    keywordWeight_of_isInk hkw hq, Nat.zero_add, Nat.add_zero]

/-- Where a reader ends up does not depend on the white space around a text, unless that
is in a string literal. -/
lemma run_trimSpace {d d' : Int} (h : run ⟨.code, d⟩ t = ⟨.code, d'⟩) :
    run ⟨.code, d⟩ (trimSpace t) = ⟨.code, d'⟩ := by
  obtain ⟨p, q, ht, hp, hq⟩ := exists_eq_append_trimSpace t
  rw [ht, append_assoc, run_append,
    run_plain fun c hc => plain_of_not_isInk (hp c hc), run_append] at h
  have hread : (run ⟨.code, d⟩ (trimSpace t)).reading = .code := by
    refine (after_of_ink_eq_nil hq).2 _ ?_
    rw [← reading_run, h]
  cases hu : run ⟨.code, d⟩ (trimSpace t) with
  | mk st e =>
    rw [hu] at h hread
    obtain rfl : st = .code := hread
    rwa [run_plain fun c hc => plain_of_not_isInk (hq c hc)] at h

end Weight

/-! ## `between` -/

section Between

variable {s kw : Text} {i j k : Nat}

lemma apart_part (hj : Border s j) : Apart (part s i j) (part s j k) := by
  cases hhead : (part s j k).head? with
  | none => exact apart_of_head (by rw [hhead]; rfl)
  | some c =>
    have hc : s[j]? = some c := by
      rw [part, head?_drop, getElem?_take] at hhead
      split at hhead
      · exact hhead
      · cases hhead
    cases hlast : (part s i j).getLast? with
    | none => exact apart_of_getLast (by rw [hlast]; rfl)
    | some c' =>
      have hjlt : j < s.length := (List.getElem?_eq_some_iff.1 hc).1
      have hlen : (part s i j).length = j - i := length_part hjlt.le
      have hne : 0 < j - i := by
        rw [← hlen, length_pos_iff]
        rintro hnil
        rw [hnil] at hlast
        cases hlast
      have hc' : s[j - 1]? = some c' := by
        rw [getLast?_eq_getElem?, hlen, part, getElem?_drop,
          show i + (j - i - 1) = j - 1 by omega, getElem?_take_of_lt (by omega)] at hlast
        exact hlast
      rw [Apart, hlast, hhead, Option.any_some, Option.any_some, Bool.and_eq_false_iff]
      have hborder := hj (by omega)
      rw [hc, hc', Option.any_some, Option.any_some] at hborder
      cases hident : isIdentByte c' with
      | false => exact .inl rfl
      | true => exact .inr (hborder hident)

/-- An operand, with the operator after it. -/
lemma keywordWeight_operand {d : Int} {a w r : Text} (hkw : IsWord kw)
    (ha : run ⟨.code, d⟩ a = ⟨.code, d⟩) (hw : ∀ c ∈ w, Plain c)
    (hfirst : (w ++ r).head?.any isIdentByte = false) (hlast : w.getLast?.any isIdentByte = false)
    (hno : ∀ t ∈ w.tails, startsWord kw t = false) :
    keywordWeight kw false ⟨.code, d⟩ (a ++ (w ++ r)) =
      keywordWeight kw false ⟨.code, d⟩ a + keywordWeight kw false ⟨.code, d⟩ r := by
  rw [keywordWeight_split hkw (apart_of_head hfirst), ha,
    keywordWeight_split hkw (apart_of_getLast hlast), keywordWeight_eq_zero hno,
    run_plain hw, Nat.zero_add]

lemma isWord_between : IsWord "between".toList := isWord_of_ok rfl

/-- What `lowerBetween` puts in the place of a `between`. -/
def betweenReplacement (left a b : Text) : Text :=
  "(".toList ++ left ++ " >= ".toList ++ a ++ " and ".toList ++ left ++
    " <= ".toList ++ b ++ ")".toList

/-- The weight of `between` in a text. -/
def betweenWeight (s : Text) : Nat := keywordWeight "between".toList false ⟨.code, 0⟩ s

lemma betweenWeight_append {a b : Text} (h : Apart a b) (ha : run ⟨.code, 0⟩ a = ⟨.code, 0⟩) :
    betweenWeight (a ++ b) = betweenWeight a + betweenWeight b := by
  rw [betweenWeight, keywordWeight_split isWord_between h, ha]
  rfl

lemma betweenWeight_part (hij : i ≤ j) (hjk : j ≤ k) (hj : Border s j)
    (hrun : run ⟨.code, 0⟩ (part s i j) = ⟨.code, 0⟩) :
    betweenWeight (part s i k) = betweenWeight (part s i j) + betweenWeight (part s j k) := by
  rw [← part_append hij hjk]
  exact betweenWeight_append (apart_part hj) hrun

lemma betweenWeight_replacement {left a b : Text} (rest : Text)
    (hleft : run ⟨.code, 0⟩ left = ⟨.code, 0⟩) (ha : run ⟨.code, 0⟩ a = ⟨.code, 0⟩)
    (hb : rest = [] ∨ run ⟨.code, 0⟩ b = ⟨.code, 0⟩) :
    betweenWeight (betweenReplacement left a b ++ rest) ≤
      betweenWeight left + betweenWeight a + betweenWeight b + betweenWeight rest := by
  have hnested {t : Text} (h : run ⟨.code, 0⟩ t = ⟨.code, 0⟩) :
      run ⟨.code, 1⟩ t = ⟨.code, 1⟩ := by
    have := run_shift .code 0 1 t
    rwa [h] at this
  have hplain {t : Text} (h : t.all fun c => !(c == '"') && nesting c == 0) : ∀ c ∈ t, Plain c := by
    intro c hc
    simpa [Plain] using all_eq_true.1 h c hc
  have hrest : keywordWeight "between".toList false ((Cursor.run ⟨.code, 1⟩ b).step ')') rest =
      betweenWeight rest := by
    rcases hb with rfl | hb
    · rfl
    · rw [hnested hb]
      rfl
  have hweight : betweenWeight (betweenReplacement left a b ++ rest) =
      keywordWeight "between".toList false ⟨.code, 1⟩ left +
        (keywordWeight "between".toList false ⟨.code, 1⟩ a +
          (keywordWeight "between".toList false ⟨.code, 1⟩ left +
            (keywordWeight "between".toList false ⟨.code, 1⟩ b + betweenWeight rest))) := by
    simp only [betweenReplacement, append_assoc]
    rw [betweenWeight, keywordWeight_split isWord_between (apart_of_getLast rfl),
      keywordWeight_eq_zero (by decide), Nat.zero_add]
    change keywordWeight _ _ ⟨.code, 1⟩ _ = _
    rw [keywordWeight_operand isWord_between (hnested hleft) (hplain rfl) rfl rfl (by decide),
      keywordWeight_operand isWord_between (hnested ha) (hplain rfl) rfl rfl (by decide),
      keywordWeight_operand isWord_between (hnested hleft) (hplain rfl) rfl rfl (by decide),
      keywordWeight_split isWord_between (apart_of_head rfl),
      keywordWeight_split isWord_between (apart_of_getLast rfl),
      keywordWeight_eq_zero (t := ")".toList) (by decide), Nat.zero_add, ← hrest]
    rfl
  have hhalf (t : Text) : 2 * keywordWeight "between".toList false ⟨.code, 1⟩ t ≤ betweenWeight t :=
    two_mul_keywordWeight_le .code 0
  have := hhalf left
  have := hhalf a
  have := hhalf b
  omega

lemma betweenRound_returns (s : Text) : Returns (betweenRound s)
    (Sum.elim (· = s) fun s' => betweenWeight s' < betweenWeight s ∧ (Tidy s → Tidy s')) := by
  rw [betweenRound]
  cases hidx : indexTopLevelKeyword s "between".toList 0 with
  | none => exact Returns.pure rfl
  | some idx =>
    obtain ⟨-, hmatch, hrun⟩ := indexTopLevelKeyword_spec isWord_between hidx
    obtain ⟨hlen, hpart, -⟩ := part_of_matchKeyword isWord_between hmatch
    obtain ⟨hleft, hborder, hrunL⟩ := leftOperandStart_spec isWord_between hmatch
    obtain ⟨hborder₁, hborder₂⟩ := border_of_matchKeyword isWord_between hmatch
    change part s idx (idx + 7) = _ at hpart
    dsimp only
    cases hand : indexTopLevelKeyword s "and".toList (idx + 7) with
    | none =>
      simp (disch := omega) only [slice_eq_ok, ok_bind]
      exact Returns.pure rfl
    | some andIdx =>
      obtain ⟨hle, hmatch', hrunA⟩ := indexTopLevelKeyword_spec isWord_and hand
      obtain ⟨hlen', -, -⟩ := part_of_matchKeyword isWord_and hmatch'
      obtain ⟨hborder₃, hborder₄⟩ := border_of_matchKeyword isWord_and hmatch'
      have hrunAnd := run_part_keyword isWord_and hmatch' 0
      change andIdx + 3 ≤ s.length at hlen'
      change Border s (andIdx + 3) at hborder₄
      change Cursor.run _ (part s andIdx (andIdx + 3)) = _ at hrunAnd
      obtain ⟨hb, hb', hborder₅, hrunB⟩ := rightOperandEnd_spec hlen'
      dsimp only
      generalize leftOperandStart s idx = leftStart at *
      generalize rightOperandEnd s (andIdx + 3) = bEnd at *
      have hidx : idx ≤ s.length := by omega
      have hand : andIdx ≤ s.length := by omega
      simp (disch := omega) only [slice_eq_ok, ok_bind]
      have hrunLeft : Cursor.run ⟨.code, 0⟩ (part s leftStart idx) = ⟨.code, 0⟩ := by
        rw [← part_append (Nat.zero_le _) hleft, Cursor.run_append, hrunL] at hrun
        exact hrun
      refine Returns.pure
        ⟨?_, fun h => tidy_splice (getLast?_append_literal _ rfl) rfl (by decide) h _ _⟩
      have hafter : part s bEnd s.length = [] ∨
          Cursor.run ⟨.code, 0⟩ (part s (andIdx + 3) bEnd) = ⟨.code, 0⟩ :=
        hrunB.imp (fun h => by rw [h, part_self]) id
      have hnew := betweenWeight_replacement (part s bEnd s.length) (run_trimSpace hrunLeft)
        (run_trimSpace hrunA) (hafter.imp id run_trimSpace)
      -- the weight before the round, operand by operand
      have hold : betweenWeight s = betweenWeight (part s 0 leftStart) +
          (betweenWeight (part s leftStart idx) + (1 + (betweenWeight (part s (idx + 7) andIdx) +
            (betweenWeight (part s andIdx (andIdx + 3)) +
              (betweenWeight (part s (andIdx + 3) bEnd) +
              betweenWeight (part s bEnd s.length)))))) := by
        have hend : betweenWeight (part s (andIdx + 3) s.length) =
            betweenWeight (part s (andIdx + 3) bEnd) + betweenWeight (part s bEnd s.length) := by
          rcases hrunB with rfl | hrunB
          · rw [part_self]
            rfl
          · exact betweenWeight_part hb hb' hborder₅ hrunB
        have hone : betweenWeight (part s idx (idx + 7)) = 1 := by
          rw [hpart]
          decide
        have hrunWord : Cursor.run ⟨.code, 0⟩ (part s idx (idx + 7)) = ⟨.code, 0⟩ := by
          rw [hpart]
          rfl
        conv_lhs => rw [← part_zero_length s]
        rw [betweenWeight_part (Nat.zero_le _) (hleft.trans hidx) hborder hrunL,
          betweenWeight_part hleft hidx hborder₁ hrunLeft,
          betweenWeight_part (Nat.le_add_right idx 7) hlen hborder₂ hrunWord, hone,
          betweenWeight_part hle hand hborder₃ hrunA,
          betweenWeight_part (Nat.le_add_right andIdx 3) hlen' hborder₄ hrunAnd, hend]
      rw [append_assoc]
      change betweenWeight (part s 0 leftStart ++ (betweenReplacement _ _ _ ++ _)) < _
      rw [betweenWeight_append (apart_of_head rfl) hrunL, hold]
      simp only [betweenWeight, keywordWeight_trimSpace isWord_between] at hnew ⊢
      omega

end Between

end Blkit
