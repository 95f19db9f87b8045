import Blkit.Text.Item

/-!
# The loops of the passes on items

What the loops of `Text/Scan.lean` do on the text of a list of items: they look
only at the words and commas that are not in a bracket group.
-/

namespace Blkit

open Item List

/-! ## Keywords -/

section Keyword

variable {s kw : Text} {i : Nat}

/-- A word: at least one identifier byte, and no others. -/
def IsWord (w : Text) : Prop := w ≠ [] ∧ ∀ c ∈ w, isIdentByte c = true

variable {c : Char}

lemma matchKeyword_eq_false_of_head (hkw : IsWord kw) (hs : s[i]? = some c)
    (hc : isIdentByte c = false) : matchKeyword s i kw = false := by
  obtain ⟨hne, hall⟩ := hkw
  cases kw with
  | nil => exact absurd rfl hne
  | cons k kw =>
    rw [matchKeyword, Bool.and_assoc, Bool.and_eq_false_iff]
    left
    rw [beq_eq_false_iff_ne]
    intro h
    have hk : ((s.drop i).take (k :: kw).length)[0]? = some k := by rw [h]; rfl
    rw [length_cons, getElem?_take_of_lt (by omega), getElem?_drop, Nat.add_zero, hs] at hk
    rw [Option.some.inj hk, hall k (by simp)] at hc
    cases hc

/-- At a word, exactly that word matches. -/
lemma matchKeyword_word {P w Q : Text} (hw : IsWord w) (hkw : IsWord kw)
    (hP : P.getLast?.any isIdentByte = false) (hQ : Q.head?.any isIdentByte = false) :
    matchKeyword (P ++ w ++ Q) P.length kw = decide (w = kw) := by
  have hleft : (decide (0 < P.length) && (P ++ w ++ Q)[P.length - 1]?.any isIdentByte) = false := by
    by_cases h : 0 < P.length
    · rw [append_assoc, getElem?_append_left (by omega), ← getLast?_eq_getElem?, hP, Bool.and_false]
    · simp [h]
  have hdrop : (P ++ w ++ Q).drop P.length = w ++ Q := by simp
  have hright : (P ++ w ++ Q)[P.length + kw.length]? = (w ++ Q)[kw.length]? := by
    rw [append_assoc, getElem?_append_right (by omega), Nat.add_sub_cancel_left]
  rw [matchKeyword, hleft, hdrop, hright, Bool.not_false, Bool.and_true]
  by_cases heq : w = kw
  · subst heq
    rw [take_left, getElem?_append_right (Nat.le_refl _), Nat.sub_self, ← head?_eq_getElem?, hQ]
    simp
  · rw [decide_eq_false heq, Bool.and_eq_false_iff, beq_eq_false_iff_ne]
    by_contra hboth
    rw [not_or, not_not] at hboth
    obtain ⟨htake, hend⟩ := hboth
    rcases Nat.lt_trichotomy kw.length w.length with hlt | hlen | hlt
    · -- The word goes on.
      rw [getElem?_append_left hlt, getElem?_eq_getElem hlt, Option.any_some,
        hw.2 _ (getElem_mem hlt)] at hend
      exact hend rfl
    · rw [hlen, take_left] at htake
      exact heq htake
    · -- The keyword would contain what follows the word.
      have hk : (w ++ Q)[w.length]? = some kw[w.length] := by
        rw [← getElem?_eq_getElem hlt]
        conv_rhs => rw [← htake]
        rw [getElem?_take_of_lt hlt]
      rw [getElem?_append_right (Nat.le_refl _), Nat.sub_self, ← head?_eq_getElem?] at hk
      rw [hk, Option.any_some, hkw.2 _ (getElem_mem hlt)] at hQ
      cases hQ

end Keyword

/-! ## The loop inside bracket groups -/

section Loop

variable {σ ρ : Type} {visit : Nat → Char → Int → σ → Step σ ρ} {c : Char}

lemma nesting_eq_zero (ho : isOpen c = false) (hc : isClose c = false) : nesting c = 0 := by
  simp [nesting, ho, hc]

lemma Bracket.nesting_opening (b : Bracket) : nesting b.opening = 1 := by cases b <;> rfl

lemma Bracket.nesting_closing (b : Bracket) : nesting b.closing = -1 := by cases b <;> rfl

lemma scanLoop_skip (a s : Text) (i : Nat) (d : Int) (st : σ) :
    scanLoop visit (a ++ s) a.length i d st = scanLoop visit s 0 (i + a.length) d st := by
  induction a generalizing i with
  | nil => rfl
  | cons c a ih =>
    rw [cons_append, length_cons, scanLoop, ih]
    congr 1
    omega

variable {s : Text} {i : Nat} {d d' : Int} {st : σ}

lemma scanLoop_next {n : Nat} {st' : σ}
    (hq : (c == '"') = false) (hd : d + nesting c = d') (hv : visit i c d' st = .next n st') :
    scanLoop visit (c :: s) 0 i d st = scanLoop visit s (n - 1) (i + 1) d' st' := by
  rw [scanLoop, if_neg (by simp [hq]), hd, hv]

lemma scanLoop_stop {r : ρ}
    (hq : (c == '"') = false) (hd : d + nesting c = d') (hv : visit i c d' st = .stop r) :
    scanLoop visit (c :: s) 0 i d st = .inl r := by
  rw [scanLoop, if_neg (by simp [hq]), hd, hv]

lemma scanLoop_str {b : Text} (h : stringBody false (b ++ ['"']) = some b) (rest : Text) (i : Nat)
    (d : Int) (st : σ) : scanLoop visit ((Item.str b).text ++ rest) 0 i d st =
      scanLoop visit rest 0 (i + (Item.str b).text.length) d st := by
  have hskip : scanLoop visit (b ++ ['"'] ++ rest) (b ++ ['"']).length (i + 1) d st = _ :=
    scanLoop_skip _ _ _ _ _
  have hbody := skipBody_of_stringBody (stringBody_append h rest)
  rw [text, cons_append, cons_append, scanLoop, if_pos (by decide), hbody]
  rw [length_append, length_singleton] at hskip
  rw [hskip]
  congr 1
  simp
  omega

/-- Bytes that are neither quotes nor brackets, at which the body does nothing. -/
lemma scanLoop_chars {a : Text} (ha : ∀ c ∈ a, (c == '"') = false ∧ nesting c = 0)
    (hv : ∀ j (h : j < a.length), visit (i + j) a[j] d st = .next 1 st) (rest : Text) :
    scanLoop visit (a ++ rest) 0 i d st = scanLoop visit rest 0 (i + a.length) d st := by
  induction a generalizing i with
  | nil => rfl
  | cons c a ih =>
    obtain ⟨hq, hn⟩ := ha c (by simp)
    have hc := hv 0 (by simp)
    rw [Nat.add_zero, getElem_cons_zero] at hc
    rw [cons_append, scanLoop_next hq (by omega) hc, Nat.sub_self,
      ih (fun c hc => ha c (by simp [hc])) fun j hj => ?_]
    · congr 1
      simp
      omega
    · have := hv (j + 1) (by simpa using hj)
      rw [getElem_cons_succ] at this
      rwa [Nat.add_assoc, Nat.add_comm 1 j]

lemma plain_of_isIdentByte (h : isIdentByte c) : (c == '"') = false ∧ nesting c = 0 :=
  ⟨ne_quote_of_isIdentByte h, nesting_eq_zero (bracket_of_isIdentByte h).1
    (bracket_of_isIdentByte h).2⟩

lemma plain_of_isOpChar (h : isOpChar c) : (c == '"') = false ∧ nesting c = 0 := by
  obtain ⟨-, -, hq, ho, hc, -⟩ := isOpChar_iff.1 h
  exact ⟨hq, nesting_eq_zero ho hc⟩

lemma plain_of_isSpace (h : isSpace c) : (c == '"') = false ∧ nesting c = 0 := by
  obtain ⟨-, hq, ho, hc⟩ := kind_of_isSpace h
  exact ⟨hq, nesting_eq_zero ho hc⟩

lemma isWord_of_ok {w : Text} (h : (Item.word w).ok) : IsWord w := by
  simp only [ok, Bool.and_eq_true, Bool.not_eq_true', isEmpty_eq_false_iff, all_eq_true] at h
  exact h

lemma isOpChar_of_ok (h : (Item.op s).ok) : ∀ c ∈ s, isOpChar c := by
  simp only [ok, Bool.and_eq_true, all_eq_true] at h
  exact h.1

/-- Text whose string literals are closed and whose brackets are nested, by kind. -/
inductive Nested : Text → Prop
  | nil : Nested []
  | char {c : Char} {s : Text} (hq : (c == '"') = false) (hn : nesting c = 0) (hs : Nested s) :
    Nested (c :: s)
  | str {t s : Text} (ht : stringBody false (t ++ ['"']) = some t) (hs : Nested s) :
    Nested ((Item.str t).text ++ s)
  | group (b : Bracket) {t s : Text} (ht : Nested t) (hs : Nested s) :
    Nested (b.opening :: (t ++ b.closing :: s))

lemma nested_append {a s : Text} (ha : Nested a) (hs : Nested s) : Nested (a ++ s) := by
  induction ha with
  | nil => exact hs
  | char hq hn _ ih => exact .char hq hn ih
  | str ht _ ih =>
    rw [append_assoc]
    exact .str ht ih
  | group b ht _ _ ih =>
    rw [cons_append, append_assoc, cons_append]
    exact .group b ht ih

lemma nested_of_plain {a : Text} (ha : ∀ c ∈ a, (c == '"') = false ∧ nesting c = 0) : Nested a := by
  induction a with
  | nil => exact .nil
  | cons c a ih =>
    rw [forall_mem_cons] at ha
    exact .char ha.1.1 ha.1.2 (ih ha.2)

mutual

/-- The text of an item is nested. -/
theorem nested_text : (x : Item) → x.ok → Nested x.text
  | .word _, hok => nested_of_plain fun c hc => plain_of_isIdentByte ((isWord_of_ok hok).2 c hc)
  | .str t, hok => by simpa using Nested.str (t := t) (by simpa [ok] using hok) .nil
  | .op _, hok => nested_of_plain fun c hc => plain_of_isOpChar (isOpChar_of_ok hok c hc)
  | .blank c, hok => nested_of_plain fun c hc => plain_of_isSpace (by rwa [mem_singleton.1 hc])
  | .group b inner, hok => .group b (nested_textAll inner hok) .nil

theorem nested_textAll : (xs : List Item) → {Q : Text} → okAll xs Q → Nested (textAll xs)
  | [], _, _ => .nil
  | x :: xs, _, hok => by
    simp only [okAll, Bool.and_eq_true] at hok
    exact nested_append (nested_text x hok.1.1) (nested_textAll xs hok.2)

end

/-- Inside a bracket group, nothing happens. -/
lemma scanLoop_nested (hv : ∀ i c d st, 0 < d → visit i c d st = .next 1 st) {a : Text}
    (ha : Nested a) (rest : Text) (i : Nat) {d : Int} (st : σ) (hd : 0 < d) :
    scanLoop visit (a ++ rest) 0 i d st = scanLoop visit rest 0 (i + a.length) d st := by
  induction ha generalizing rest i d with
  | nil => rfl
  | char hq hn _ ih =>
    rw [cons_append, scanLoop_next hq (by omega) (hv _ _ _ _ hd), Nat.sub_self, ih _ _ hd,
      length_cons, Nat.add_right_comm, Nat.add_assoc]
  | str ht _ ih => rw [append_assoc, scanLoop_str ht, ih _ _ hd, length_append, Nat.add_assoc]
  | group b _ _ iht ih =>
    rw [cons_append, append_assoc, cons_append,
      scanLoop_next b.kind_opening.1 (congrArg (d + ·) b.nesting_opening) (hv _ _ _ _ (by omega)),
      Nat.sub_self, iht _ _ (by omega),
      scanLoop_next b.kind_closing.1 (by rw [b.nesting_closing]; omega) (hv _ _ d _ hd),
      Nat.sub_self,
      ih _ _ hd]
    congr 1
    simp
    omega

/-! ## The loop over items -/

variable (onWord : Text → Nat → σ → Step σ ρ) (onComma : Nat → σ → Step σ ρ)

/-- What the body of the loop does at an item. -/
def itemStep : Item → Nat → σ → Step σ ρ
  | .word w, i, st => onWord w i st
  | .op s, i, st => if s == [','] then onComma i st else .next 1 st
  | _, _, st => .next 1 st

/-- The loop over items. -/
def itemScan : List Item → Nat → σ → ρ ⊕ σ
  | [], _, st => .inr st
  | x :: xs, i, st =>
    match itemStep onWord onComma x i st with
    | .stop r => .inl r
    | .next _ st => itemScan xs (i + x.text.length) st

lemma itemScan_append (xs ys : List Item) (i : Nat) (st : σ) :
    itemScan onWord onComma (xs ++ ys) i st = match itemScan onWord onComma xs i st with
      | .inl r => .inl r
      | .inr st => itemScan onWord onComma ys (i + (textAll xs).length) st := by
  induction xs generalizing i st with
  | nil => rfl
  | cons x xs ih =>
    rw [cons_append, itemScan, itemScan]
    cases itemStep onWord onComma x i st with
    | stop r => rfl
    | next n st => simp only [ih, textAll, length_append, Nat.add_assoc]

variable {xs : List Item}

lemma itemScan_quiet (h : ∀ x ∈ xs, ∀ i, itemStep onWord onComma x i st = .next 1 st) (i : Nat) :
    itemScan onWord onComma xs i st = .inr st := by
  induction xs generalizing i with
  | nil => rfl
  | cons x xs ih =>
    rw [itemScan, h x (by simp)]
    exact ih (fun y hy => h y (by simp [hy])) _

/-- The body of a loop over `s` reacts to words and commas that are in no bracket
group, and to nothing else. -/
structure TopVisit (s : Text) (visit : Nat → Char → Int → σ → Step σ ρ) : Prop where
  deep : ∀ i c d st, 0 < d → visit i c d st = .next 1 st
  close : ∀ i c st, isClose c = true → s[i]? = some c → visit i c 0 st = .next 1 st
  inside : ∀ i c e st, s[i]? = some e → isIdentByte e = true → isIdentByte c = true →
    visit (i + 1) c 0 st = .next 1 st
  other : ∀ i c st, s[i]? = some c → isIdentByte c = false → isOpen c = false →
    isClose c = false → c ≠ ',' → visit i c 0 st = .next 1 st
  comma : ∀ i st, s[i]? = some ',' → visit i ',' 0 st = onComma i st
  word : ∀ P c w Q st, s = P ++ (c :: w) ++ Q → IsWord (c :: w) →
    P.getLast?.any isIdentByte = false → Q.head?.any isIdentByte = false →
    visit P.length c 0 st = onWord (c :: w) P.length st
  bounded : ∀ w i st n st', IsWord w → onWord w i st = .next n st' → n ≤ w.length
  single : ∀ i st n st', onComma i st = .next n st' → n ≤ 1

/-- The items do not begin in the middle of a word that `P` ends with. -/
def Starts (P : Text) (xs : List Item) : Prop :=
  ∀ w ys, xs = .word w :: ys → P.getLast?.any isIdentByte = false

variable {x : Item}

lemma getLast?_text (hok : x.ok) (hw : ∀ w, x ≠ .word w) (P : Text) :
    (P ++ x.text).getLast?.any isIdentByte = false := by
  cases x with
  | word w => exact absurd rfl (hw w)
  | str b =>
    rw [text, ← append_assoc, getLast?_concat]
    rfl
  | op s =>
    have hall := isOpChar_of_ok hok
    have hne : s ≠ [] := by
      rintro rfl
      simp [ok, wideOps] at hok
    rw [text, getLast?_append_of_ne_nil _ hne, getLast?_eq_some_getLast hne, Option.any_some]
    exact (isOpChar_iff.1 (hall _ (getLast_mem hne))).1
  | blank c =>
    rw [text, getLast?_concat]
    exact (kind_of_isSpace hok).1
  | group b inner =>
    rw [text, ← append_assoc, getLast?_concat]
    exact b.kind_closing.2.1

lemma starts_append {Q : Text} (hok : okAll (x :: xs) Q) (P : Text) : Starts (P ++ x.text) xs := by
  rintro w ys rfl
  simp only [okAll, Bool.and_eq_true] at hok
  refine getLast?_text hok.1.1 (fun w' hx => ?_) P
  subst hx
  -- Two words would be one.
  have hend := hok.1.2
  obtain ⟨hne, hall⟩ := isWord_of_ok hok.2.1.1
  cases w with
  | nil => exact hne rfl
  | cons c w => simp [endsBefore, textAll, text, hall c (by simp)] at hend

lemma ne_comma_of_ok (hok : (Item.op s).ok) (hs : s ≠ [',']) : ∀ c ∈ s, c ≠ ',' := by
  rintro c hc rfl
  simp only [ok, Bool.and_eq_true, Bool.or_eq_true, beq_iff_eq] at hok
  rcases hok.2 with h | h
  · obtain ⟨d, rfl⟩ := length_eq_one_iff.1 h
    rw [mem_singleton.1 hc] at hs
    exact hs rfl
  · simp only [wideOps, contains_eq_mem, decide_eq_true_eq, mem_cons, not_mem_nil, or_false] at h
    rcases h with rfl | rfl | rfl | rfl | rfl | rfl | rfl | rfl <;> simp at hc

variable {onWord onComma} {s : Text} (hv : TopVisit onWord onComma s visit)

include hv in
lemma scanLoop_item {x : Item} (hx : x.ok) {P Q : Text} (hs : s = P ++ x.text ++ Q)
    (hend : x.endsBefore Q) (hP : Starts P [x]) (R : Text) (st : σ) :
    scanLoop visit (x.text ++ R) 0 P.length 0 st = match itemStep onWord onComma x P.length st with
      | .stop r => .inl r
      | .next _ st => scanLoop visit R 0 (P.length + x.text.length) 0 st := by
  have hget (j : Nat) (hj : j < x.text.length) : s[P.length + j]? = some x.text[j] := by
    rw [hs, append_assoc, getElem?_append_right (by omega), Nat.add_sub_cancel_left,
      getElem?_append_left hj, getElem?_eq_getElem hj]
  cases x with
  | str b => exact scanLoop_str (by simpa [ok] using hx) R _ _ st
  | blank c =>
    obtain ⟨hi, -, ho, hc⟩ := kind_of_isSpace hx
    refine scanLoop_chars (fun c' hc' => ?_) (fun j hj => ?_) R
    · rw [mem_singleton.1 hc']
      exact plain_of_isSpace hx
    · obtain rfl : j = 0 := by simpa [text] using hj
      refine hv.other _ c st (hget 0 hj) hi ho hc ?_
      rintro rfl
      exact absurd hx (by decide)
  | op t =>
    have hplain : ∀ c ∈ t, (c == '"') = false ∧ nesting c = 0 :=
      fun c hc => plain_of_isOpChar (isOpChar_of_ok hx c hc)
    by_cases ht : t = [',']
    · subst ht
      have hcomma := hv.comma P.length st (hget 0 (by simp [text]))
      simp only [itemStep, BEq.rfl, if_true]
      cases hstep : onComma P.length st with
      | stop r => exact scanLoop_stop rfl rfl (hcomma.trans hstep)
      | next n st' =>
        have hn := hv.single _ _ _ _ hstep
        rw [text, singleton_append, scanLoop_next rfl rfl (hcomma.trans hstep),
          Nat.sub_eq_zero_of_le hn]
        rfl
    · have hne : (t == [',']) = false := by simpa using ht
      simp only [itemStep, hne, Bool.false_eq_true, if_false]
      refine scanLoop_chars hplain (fun j hj => ?_) R
      obtain ⟨hi, -, -, ho, hc, -⟩ := isOpChar_iff.1 (isOpChar_of_ok hx _ (getElem_mem hj))
      exact hv.other _ _ st (hget j hj) hi ho hc (ne_comma_of_ok hx ht _ (getElem_mem hj))
  | group b inner =>
    have hclose : s[P.length + (1 + (textAll inner).length)]? = some b.closing := by
      rw [hget _ (by simp [text]; omega)]
      simp only [text, cons_append, Option.some.injEq]
      rw [getElem_cons]
      simp
    rw [text, cons_append, cons_append, append_assoc, singleton_append,
      scanLoop_next b.kind_opening.1 (congrArg (0 + ·) b.nesting_opening)
        (hv.deep _ _ _ _ (by decide)), Nat.sub_self,
      scanLoop_nested hv.deep (nested_textAll inner hx) _ _ _ (by decide),
      scanLoop_next b.kind_closing.1 (by rw [b.nesting_closing]; rfl)
        (hv.close _ _ _ b.kind_closing.2.2.2.2.1 (by rw [← hclose]; congr 1; omega)), Nat.sub_self]
    simp only [itemStep]
    congr 1
    simp
    omega
  | word w =>
    obtain ⟨hne, hall⟩ := isWord_of_ok hx
    cases w with
    | nil => exact absurd rfl hne
    | cons c w =>
      have hword :=
        hv.word P c w Q st hs ⟨hne, hall⟩ (hP _ _ rfl) (by simpa [endsBefore] using hend)
      have hq := (plain_of_isIdentByte (hall c (by simp))).1
      have hn := (plain_of_isIdentByte (hall c (by simp))).2
      rw [text, cons_append]
      simp only [itemStep]
      cases hstep : onWord (c :: w) P.length st with
      | stop r => exact scanLoop_stop hq (by omega) (hword.trans hstep)
      | next n st' =>
        -- The body may jump ahead, but not out of the word.
        have hle := hv.bounded _ _ _ _ _ ⟨hne, hall⟩ hstep
        rw [length_cons] at hle
        have hlen : (w.take (n - 1)).length = n - 1 := by
          rw [length_take]
          omega
        have hskip : scanLoop visit (w.take (n - 1) ++ (w.drop (n - 1) ++ R))
            (w.take (n - 1)).length
          (P.length + 1) 0 st' = _ := scanLoop_skip _ _ _ _ _
        rw [← append_assoc, take_append_drop, hlen] at hskip
        rw [scanLoop_next hq (by omega) (hword.trans hstep), hskip]
        rw [scanLoop_chars (fun d hd => plain_of_isIdentByte
          (hall d (by simp [mem_of_mem_drop hd]))) fun j hj => ?_]
        · congr 1
          simp
          omega
        · rw [length_drop] at hj
          have hprev := hget (n - 1 + j) (by simp [text]; omega)
          rw [getElem_drop]
          have hinside := hv.inside (P.length + (n - 1 + j)) w[n - 1 + j] _ st' hprev
            (hall _ (getElem_mem _)) (hall _ (by simp))
          rw [← hinside]
          congr 1
          omega

include hv in
lemma scanLoop_items {xs : List Item} {P Q : Text} (hs : s = P ++ textAll xs ++ Q)
    (hok : okAll xs Q) (hP : Starts P xs) (R : Text) (st : σ) :
    scanLoop visit (textAll xs ++ R) 0 P.length 0 st =
      match itemScan onWord onComma xs P.length st with
      | .inl r => .inl r
      | .inr st => scanLoop visit R 0 (P.length + (textAll xs).length) 0 st := by
  induction xs generalizing P st with
  | nil => rfl
  | cons x xs ih =>
    have hok' := hok
    simp only [okAll, Bool.and_eq_true] at hok'
    have hP' : Starts P [x] := fun w ys h => hP w xs (by simp at h; simp [h.1])
    rw [textAll, append_assoc,
      scanLoop_item hv hok'.1.1 (Q := textAll xs ++ Q) (by simp [hs, textAll]) hok'.1.2 hP',
      itemScan]
    cases itemStep onWord onComma x P.length st with
    | stop r => rfl
    | next n st =>
      have := ih (P := P ++ x.text) (by simp [hs, textAll]) hok'.2 (starts_append hok P) st
      rw [length_append] at this
      simp only [this, length_append, Nat.add_assoc]

end Loop

end Blkit
