import Blkit.Text.TopLevel
import Mathlib.Data.List.DropRight

/-!
# Splitting items

The loops of the passes, on the text of items: where the first keyword is, and the texts
of the groups.
-/

namespace Blkit

open List

namespace Item

/-- The item is this word. -/
def isWord (w : Text) : Item → Bool
  | .word v => v == w
  | _ => false

/-- How often a word occurs among the items, not counting those in groups. -/
def count (w : Text) (xs : List Item) : Nat := xs.countP (isWord w)

section Count

variable {w v : Text}

@[simp] lemma isWord_word : isWord w (.word v) = (v == w) := rfl
@[simp] lemma isWord_str {body : Text} : isWord w (.str body) = false := rfl
@[simp] lemma isWord_op {s : Text} : isWord w (.op s) = false := rfl
@[simp] lemma isWord_group {b : Bracket} {inner : List Item} :
    isWord w (.group b inner) = false := rfl

lemma isWord_iff {x : Item} : x.isWord w ↔ x = .word w := by
  cases x <;> simp [isWord]

@[simp] lemma count_nil : count w [] = 0 := rfl

@[simp] lemma count_cons (x : Item) (xs : List Item) :
    count w (x :: xs) = count w xs + if x.isWord w then 1 else 0 := by
  simp [count, countP_cons]

@[simp] lemma count_append (xs ys : List Item) : count w (xs ++ ys) = count w xs + count w ys := by
  simp [count, countP_append]

variable {xs : List Item}

@[simp] lemma count_eraseAll (xs : List Item) : count w (eraseAll xs) = count w xs := by
  induction xs with
  | nil => rfl
  | cons x xs ih => cases x <;> simp [eraseAll, erase, ih, isWord, Nat.add_comm]

/-- Where the first occurrence of a word splits the items. -/
lemma exists_first (h : count w xs ≠ 0) : ∃ a b, xs = a ++ .word w :: b ∧ count w a = 0 := by
  induction xs with
  | nil => exact absurd rfl h
  | cons x xs ih =>
    by_cases hx : x.isWord w = true
    · exact ⟨[], xs, by simp [isWord_iff.1 hx], rfl⟩
    · obtain ⟨a, b, rfl, ha⟩ := ih (by simpa [hx] using h)
      exact ⟨x :: a, b, rfl, by simp [ha, hx]⟩

variable {b a : List Item}

lemma first_unique {a' b' : List Item} (h : a ++ .word w :: b = a' ++ .word w :: b')
    (ha : count w a = 0) (ha' : count w a' = 0) : a = a' ∧ b = b' := by
  induction a generalizing a' with
  | nil =>
    cases a' with
    | nil => simpa using h
    | cons x a' =>
      rw [nil_append, cons_append, cons.injEq] at h
      simp [← h.1] at ha'
  | cons x a ih =>
    cases a' with
    | nil =>
      rw [nil_append, cons_append, cons.injEq] at h
      simp [h.1] at ha
    | cons y a' =>
      simp only [cons_append, cons.injEq] at h
      obtain ⟨rfl, h⟩ := h
      obtain ⟨rfl, rfl⟩ := ih h (by simp at ha; omega) (by simp at ha'; omega)
      exact ⟨rfl, rfl⟩

/-- What is before and after the first occurrence of a word. -/
def cut (w : Text) : List Item → Option (List Item × List Item)
  | [] => none
  | x :: xs => if x.isWord w then some ([], xs) else (cut w xs).map fun c => (x :: c.1, c.2)

lemma cut_of_count (h : count w xs = 0) : cut w xs = none := by
  induction xs with
  | nil => rfl
  | cons x xs ih =>
    rw [count_cons, Nat.add_eq_zero_iff] at h
    have hx : x.isWord w = false := by simpa using h.2
    simp [cut, hx, ih h.1]

lemma cut_append (h : count w a = 0) (b : List Item) : cut w (a ++ .word w :: b) = some (a, b) := by
  induction a with
  | nil => simp [cut]
  | cons x a ih =>
    rw [count_cons, Nat.add_eq_zero_iff] at h
    have hx : x.isWord w = false := by simpa using h.2
    simp [cut, hx, ih h.1]

lemma eq_of_cut (h : cut w xs = some (a, b)) : xs = a ++ .word w :: b ∧ count w a = 0 := by
  by_cases hxs : count w xs = 0
  · rw [cut_of_count hxs] at h
    cases h
  · obtain ⟨a', b', rfl, ha⟩ := exists_first hxs
    rw [cut_append ha] at h
    cases h
    exact ⟨rfl, ha⟩

end Count

end Item

open Item

/-! ## The first keyword -/

section Keyword

variable {kw : Text} (hkw : IsWord kw)

/-- The body of `indexTopLevelKeyword` at a word. -/
def stopAt (kw w : Text) (i : Nat) (_ : Unit) : Step Unit Nat :=
  if w = kw then .stop i else .next 1 ()

include hkw in
lemma topVisit_index (s : Text) : TopVisit (stopAt kw) (fun _ _ => .next 1 ()) s
    fun (i : Nat) (_ : Char) (depth : Int) (_ : Unit) =>
      if depth == 0 && matchKeyword s i kw then .stop i else .next 1 () where
  deep i c d st hd := by
    rw [if_neg]
    have : (d == 0) = false := beq_eq_false_iff_ne.2 (by omega)
    simp [this]
  close i c st hc hs := by
    rw [matchKeyword_eq_false_of_head hkw hs]
    · rfl
    · rcases isClose_iff.1 hc with rfl | rfl | rfl <;> rfl
  inside i c e st hs he _ := by
    simp [matchKeyword, hs, he]
  other i c st hs hi _ _ _ := by
    rw [matchKeyword_eq_false_of_head hkw hs hi]
    rfl
  comma i st hs := by
    rw [matchKeyword_eq_false_of_head hkw hs rfl]
    rfl
  word P c w Q st hs hw hP hQ := by
    rw [hs, matchKeyword_word hw hkw hP hQ]
    by_cases h : c :: w = kw <;> simp [stopAt, h]
  bounded w i st n st' hw h := by
    have := length_pos_iff.2 hw.1
    unfold stopAt at h
    split at h <;> cases h
    omega
  single i st n st' h := by
    cases h
    omega

lemma itemScan_index_none {xs : List Item} (h : count kw xs = 0) (i : Nat) :
    itemScan (stopAt kw) (fun _ _ => .next 1 ()) xs i () = .inr () := by
  refine itemScan_quiet _ _ (fun x hx i => ?_) i
  have := countP_eq_zero.1 h x hx
  cases x <;> simp_all [itemStep, stopAt]

variable {P : Text} {xs : List Item} (hok : okAll xs [] = true) (hP : Starts P xs)

include hkw hok hP in
lemma indexTopLevelKeyword_eq : indexTopLevelKeyword (P ++ textAll xs) kw P.length =
      (itemScan (stopAt kw) (fun _ _ => .next 1 ()) xs P.length ()).getLeft? := by
  have h := scanLoop_items (topVisit_index hkw (P ++ textAll xs)) (P := P) (Q := [])
    (append_nil _).symm hok hP [] ()
  simp only [append_nil, scanLoop] at h
  simp only [indexTopLevelKeyword, scan, take_length, drop_left, h]
  cases itemScan (stopAt kw) (fun _ _ => .next 1 ()) xs P.length () <;> rfl

include hkw hok hP in
lemma indexTopLevelKeyword_none (h : count kw xs = 0) :
    indexTopLevelKeyword (P ++ textAll xs) kw P.length = none := by
  rw [indexTopLevelKeyword_eq hkw hok hP, itemScan_index_none h]
  rfl

include hkw in
lemma indexTopLevelKeyword_some {a b : List Item} (hok : okAll (a ++ .word kw :: b) [])
    (hP : Starts P (a ++ .word kw :: b)) (h : count kw a = 0) :
    indexTopLevelKeyword (P ++ textAll (a ++ .word kw :: b)) kw P.length =
      some (P.length + (textAll a).length) := by
  rw [indexTopLevelKeyword_eq hkw hok hP]
  simp [itemScan_append, itemScan_index_none h, itemScan, itemStep, stopAt]

lemma starts_of_okAll {pre : List Item} {x : Item} {rest : List Item} {Q : Text}
    (hok : okAll (pre ++ x :: rest) Q) : Starts (textAll pre ++ x.text) rest ∧ okAll rest Q := by
  rw [okAll_append, Bool.and_eq_true] at hok
  refine ⟨starts_append hok.2 _, ?_⟩
  simp only [okAll, Bool.and_eq_true] at hok
  exact hok.2.2

include hkw in
/-- The first keyword after an item. -/
lemma indexTopLevelKeyword_after_none {pre : List Item} {x : Item} {rest : List Item}
    (hok : okAll (pre ++ x :: rest) []) (h : count kw rest = 0) :
    indexTopLevelKeyword (textAll (pre ++ x :: rest)) kw ((textAll pre).length + x.text.length) =
      none := by
  obtain ⟨hstarts, hrest⟩ := starts_of_okAll hok
  have := indexTopLevelKeyword_none hkw hrest hstarts h
  rw [length_append, append_assoc] at this
  simpa [textAll] using this

include hkw in
lemma indexTopLevelKeyword_after_some {pre : List Item} {x : Item} {a b : List Item}
    (hok : okAll (pre ++ x :: (a ++ .word kw :: b)) []) (h : count kw a = 0) :
    indexTopLevelKeyword (textAll (pre ++ x :: (a ++ .word kw :: b))) kw
      ((textAll pre).length + x.text.length) =
      some ((textAll pre).length + x.text.length + (textAll a).length) := by
  obtain ⟨hstarts, hrest⟩ := starts_of_okAll hok
  have := indexTopLevelKeyword_some hkw hrest hstarts h
  rw [length_append, append_assoc] at this
  simpa [textAll] using this

end Keyword

variable {s a b : Text} {i : Nat}

/-- A part of a text, `s[i:j]`. -/
lemma slice_eq {c : Text} {j : Nat} (h : s = a ++ (b ++ c)) (hi : i = a.length)
    (hj : j = a.length + b.length) : (s.take j).drop i = b := by
  subst h hi hj
  rw [← append_assoc, ← length_append, take_left, drop_left]

/-- The rest of a text, `s[i:]`. -/
lemma drop_eq (h : s = a ++ b) (hi : i = a.length) : s.drop i = b := by
  subst h hi
  exact drop_left

/-! ## Operands -/

lemma isWord_and : IsWord "and".toList := isWord_of_ok rfl

lemma isWord_or : IsWord "or".toList := isWord_of_ok rfl

/-! ## Groups -/

section Group

lemma closeAt_skip (o e : Char) (a s : Text) (d j : Nat) :
    closeAt o e (a ++ s) a.length d j = closeAt o e s 0 d (j + a.length) := by
  induction a generalizing j with
  | nil => rfl
  | cons c a ih =>
    rw [cons_append, length_cons, closeAt, ih]
    congr 1
    omega

variable {a : Text}

/-- A byte that is no bracket is neither the opening nor the closing one. -/
lemma Bracket.ne_of_plain (b : Bracket) {c : Char} (h : nesting c = 0) :
    (c == b.opening) = false ∧ (c == b.closing) = false := by
  constructor
  · rw [beq_eq_false_iff_ne]
    rintro rfl
    rw [b.nesting_opening] at h
    cases h
  · rw [beq_eq_false_iff_ne]
    rintro rfl
    rw [b.nesting_closing] at h
    cases h

/-- The brackets in nested text are balanced, those of each kind. -/
lemma closeAt_nested (b : Bracket) {a : Text} (ha : Nested a) (s : Text) {d : Nat} (j : Nat)
    (hd : 0 < d) : closeAt b.opening b.closing (a ++ s) 0 d j =
      closeAt b.opening b.closing s 0 d (j + a.length) := by
  have hne : (b.closing == b.opening) = false := by cases b <;> rfl
  induction ha generalizing s d j with
  | nil => rfl
  | char hq hn _ ih =>
    obtain ⟨ho, he⟩ := b.ne_of_plain hn
    rw [cons_append, closeAt, hq, ho, he]
    simp only [Bool.false_eq_true, if_false]
    rw [ih _ _ hd, length_cons, Nat.add_right_comm, Nat.add_assoc]
  | @str t a ht _ ih =>
    have hskip := closeAt_skip b.opening b.closing (t ++ ['"']) (a ++ s) d (j + 1)
    rw [length_append, length_singleton] at hskip
    rw [append_assoc, text, cons_append, cons_append, closeAt, if_pos (by decide),
      skipBody_of_stringBody (stringBody_append ht _), hskip, ih _ _ hd]
    congr 1
    simp
    omega
  | @group b' t a _ _ iht ih =>
    rw [cons_append, append_assoc, cons_append, closeAt, b'.kind_opening.1]
    simp only [Bool.false_eq_true, if_false]
    have hlen : (b'.opening :: (t ++ b'.closing :: a)).length = 1 + t.length + 1 + a.length := by
      simp
      omega
    by_cases hb : b' = b
    · subst hb
      have hd1 : (d + 1 == 1) = false := beq_eq_false_iff_ne.2 (by omega)
      rw [BEq.rfl, if_pos rfl, iht _ _ (by omega), closeAt, b'.kind_closing.1, hne, BEq.rfl, hd1]
      simp only [Bool.false_eq_true, if_false, if_true, Nat.add_sub_cancel]
      rw [ih _ _ hd, hlen]
      simp only [Nat.add_assoc]
    · obtain ⟨h₁, h₂, h₃, h₄⟩ : (b'.opening == b.opening) = false ∧
          (b'.opening == b.closing) = false ∧
          (b'.closing == b.opening) = false ∧ (b'.closing == b.closing) = false := by
        cases b <;> cases b' <;> first | exact absurd rfl hb | decide
      rw [h₁, h₂]
      simp only [Bool.false_eq_true, if_false]
      rw [iht _ _ hd, closeAt, b'.kind_closing.1, h₃, h₄]
      simp only [Bool.false_eq_true, if_false]
      rw [ih _ _ hd, hlen]
      simp only [Nat.add_assoc]

/-- Where the scan of one kind of bracket finds the end of a group. -/
lemma closeAt_group (b : Bracket) {t : Text} (ht : Nested t) (s : Text) :
    closeAt b.opening b.closing (t ++ b.closing :: s) 0 1 0 = t.length := by
  have hne : (b.closing == b.opening) = false := by cases b <;> rfl
  rw [closeAt_nested b ht _ _ (by decide), closeAt, b.kind_closing.1, hne, BEq.rfl, Nat.zero_add]
  rfl

/-- The text of an item whose group, if it is one, has been given to `fn`. -/
def mapText (fn : Text → Text) : Item → Text
  | .group b inner => b.opening :: fn (textAll inner) ++ [b.closing]
  | x => x.text

variable {fn : Text → Text}

lemma mapGroupsLoop_skip (a s : Text) :
    mapGroupsLoop fn (a ++ s) a.length = mapGroupsLoop fn s 0 := by
  induction a with
  | nil => rfl
  | cons c a ih => rw [cons_append, length_cons, mapGroupsLoop, ih]

lemma mapGroupsLoop_plain (ha : ∀ c ∈ a, (c == '"') = false ∧ isOpen c = false)
    (s : Text) : mapGroupsLoop fn (a ++ s) 0 = a ++ mapGroupsLoop fn s 0 := by
  induction a with
  | nil => rfl
  | cons c a ih =>
    obtain ⟨hq, ho⟩ := ha c (by simp)
    rw [cons_append, mapGroupsLoop, hq, ho]
    simp only [Bool.false_eq_true, if_false, cons_append]
    rw [ih fun c hc => ha c (by simp [hc])]

lemma mapGroupsLoop_str {t : Text} (ht : stringBody false (t ++ ['"']) = some t) (s : Text) :
    mapGroupsLoop fn ((Item.str t).text ++ s) 0 = (Item.str t).text ++ mapGroupsLoop fn s 0 := by
  have hskip : mapGroupsLoop fn (t ++ ['"'] ++ s) (t ++ ['"']).length = _ := mapGroupsLoop_skip _ _
  rw [length_append, length_singleton] at hskip
  rw [text, cons_append, cons_append, mapGroupsLoop, if_pos (by decide),
    skipBody_of_stringBody (stringBody_append ht s), hskip, take_left' (by simp)]

lemma mapGroupsLoop_group (b : Bracket) {t : Text} (ht : Nested t) (s : Text) :
    mapGroupsLoop fn (b.opening :: (t ++ b.closing :: s)) 0 =
      b.opening :: (fn t ++ b.closing :: mapGroupsLoop fn s 0) := by
  have hopen : isOpen b.opening = true := by cases b <;> rfl
  have hmatch : matchingClose b.opening = b.closing := by cases b <;> rfl
  have hskip : mapGroupsLoop fn (t ++ [b.closing] ++ s) (t ++ [b.closing]).length = _ :=
    mapGroupsLoop_skip _ _
  rw [length_append, length_singleton, append_assoc, singleton_append] at hskip
  rw [mapGroupsLoop, b.kind_opening.1, hopen, hmatch, closeAt_group b ht]
  simp only [Bool.false_eq_true, if_false, if_true]
  rw [hskip, take_left, if_pos (by simp), if_pos (by simp)]
  simp

lemma mapGroupsLoop_text {x : Item} (hok : x.ok) (s : Text) :
    mapGroupsLoop fn (x.text ++ s) 0 = mapText fn x ++ mapGroupsLoop fn s 0 := by
  cases x with
  | word w =>
    refine mapGroupsLoop_plain (fun c hc => ?_) s
    have hc := (isWord_of_ok hok).2 c hc
    exact ⟨ne_quote_of_isIdentByte hc, (bracket_of_isIdentByte hc).1⟩
  | op t =>
    refine mapGroupsLoop_plain (fun c hc => ?_) s
    obtain ⟨-, -, hq, ho, -⟩ := isOpChar_iff.1 (isOpChar_of_ok hok c hc)
    exact ⟨hq, ho⟩
  | blank c =>
    refine mapGroupsLoop_plain (fun c hc => ?_) s
    rw [mem_singleton.1 hc]
    obtain ⟨-, hq, ho, -⟩ := kind_of_isSpace hok
    exact ⟨hq, ho⟩
  | str t => exact mapGroupsLoop_str (by simpa [ok] using hok) s
  | group b inner =>
    rw [text, cons_append, cons_append, append_assoc, singleton_append,
      mapGroupsLoop_group b (nested_textAll inner hok), mapText]
    simp

lemma mapTopLevelGroups_eq {xs : List Item} {Q : Text} (hok : okAll xs Q) :
    mapTopLevelGroups (textAll xs) fn = xs.flatMap (mapText fn) := by
  rw [mapTopLevelGroups]
  induction xs with
  | nil => rfl
  | cons x xs ih =>
    simp only [okAll, Bool.and_eq_true] at hok
    rw [textAll, mapGroupsLoop_text hok.1.1, ih hok.2, flatMap_cons]

end Group

/-! ## White space around items -/

section Trim

/-- The item is white space. -/
def Item.isBlank : Item → Bool
  | .blank _ => true
  | _ => false

/-- The items without the white space at both ends. -/
def Item.trim (xs : List Item) : List Item := (xs.dropWhile isBlank).rdropWhile isBlank

variable {c : Char}

lemma isInk_of_isIdentByte (h : isIdentByte c) : isInk c := by
  have hascii : isAscii c = true := by
    simp only [isIdentByte, isIdentStart, isDigit, Bool.or_eq_true, Bool.and_eq_true, beq_iff_eq,
      decide_eq_true_eq] at h
    rw [isAscii, decide_eq_true_eq]
    rcases h with ((rfl | ⟨-, h⟩) | ⟨-, h⟩) | ⟨-, h⟩
    · decide
    all_goals exact UInt32.lt_of_le_of_lt h (by decide)
  simp [isInk, hascii, isSpace_of_isIdentByte h]

lemma isInk_of_isOpChar (h : isOpChar c) : isInk c := by
  obtain ⟨-, hs, -, -, -, ha⟩ := isOpChar_iff.1 h
  simp [isInk, hs, ha]

variable {x : Item}

lemma exists_ink_ends (hok : x.ok) (hx : x.isBlank = false) :
    (∃ c t, x.text = c :: t ∧ isInk c) ∧ ∃ t c, x.text = t ++ [c] ∧ isInk c := by
  have hends {s : Text} (hne : s ≠ []) (hs : ∀ c ∈ s, isInk c = true) :
      (∃ c t, s = c :: t ∧ isInk c) ∧ ∃ t c, s = t ++ [c] ∧ isInk c :=
    ⟨⟨_, _, (cons_head_tail hne).symm, hs _ (head_mem hne)⟩,
      _, _, (dropLast_append_getLast hne).symm, hs _ (getLast_mem hne)⟩
  cases x with
  | word w =>
    obtain ⟨hne, hall⟩ := isWord_of_ok hok
    exact hends hne fun c hc => isInk_of_isIdentByte (hall c hc)
  | str b => exact ⟨⟨'"', _, rfl, rfl⟩, _, '"', rfl, rfl⟩
  | op s =>
    refine hends ?_ fun c hc => isInk_of_isOpChar (isOpChar_of_ok hok c hc)
    rintro rfl
    simp [ok, wideOps] at hok
  | blank c => cases hx
  | group b inner =>
    exact ⟨⟨b.opening, _, rfl, by cases b <;> rfl⟩, _, b.closing, rfl, by cases b <;> rfl⟩

lemma isInk_iff : isInk c ↔ isAscii c ∧ isSpace c = false := by
  simp [isInk]

variable {xs : List Item}

lemma dropWhile_textAll (h : ∀ x ∈ xs, x.ok) :
    (textAll xs).dropWhile isSpace = textAll (xs.dropWhile isBlank) := by
  induction xs with
  | nil => rfl
  | cons x xs ih =>
    have hok := h x (by simp)
    have hxs := ih fun y hy => h y (by simp [hy])
    cases hx : x.isBlank with
    | true =>
      cases x with
      | blank c =>
        have hc : isSpace c = true := hok
        rw [dropWhile_cons_of_pos hx, ← hxs]
        simp [textAll, text, hc]
      | _ => cases hx
    | false =>
      obtain ⟨c, t, hxt, hc⟩ := (exists_ink_ends hok hx).1
      rw [isInk_iff] at hc
      rw [dropWhile_cons_of_neg (by simp [hx]), textAll, hxt, cons_append,
        dropWhile_cons_of_neg (by simp [hc])]

lemma reverse_dropWhile_textAll (h : ∀ x ∈ xs, x.ok) :
    ((textAll xs).reverse.dropWhile isSpace).reverse = textAll (xs.rdropWhile isBlank) := by
  induction xs using reverseRecOn with
  | nil => rfl
  | append_singleton xs x ih =>
    have hok := h x (by simp)
    have hxs := ih fun y hy => h y (by simp [hy])
    cases hx : x.isBlank with
    | true =>
      cases x with
      | blank c =>
        have hc : isSpace c = true := hok
        rw [rdropWhile_concat_pos _ _ _ hx, ← hxs]
        simp [textAll, text, hc]
      | _ => cases hx
    | false =>
      obtain ⟨t, c, hxt, hc⟩ := (exists_ink_ends hok hx).2
      rw [isInk_iff] at hc
      rw [rdropWhile_concat_neg _ _ _ (by simp [hx])]
      simp [textAll, hxt, hc]

/-- What is left after white space has been dropped begins in ASCII. -/
lemma isAscii_head?_textAll (h : ∀ x ∈ xs, x.ok)
    (hxs : ∀ x ∈ xs.head?, x.isBlank = false) : ∀ c ∈ (textAll xs).head?, isAscii c := by
  cases xs with
  | nil => simp [textAll]
  | cons x xs =>
    obtain ⟨c, t, hxt, hc⟩ := (exists_ink_ends (h x (by simp)) (hxs x (by simp))).1
    simpa [textAll, hxt] using (isInk_iff.1 hc).1

lemma isAscii_getLast?_textAll (h : ∀ x ∈ xs, x.ok) (hxs : ∀ x ∈ xs.getLast?, x.isBlank = false) :
    ∀ c ∈ (textAll xs).getLast?, isAscii c := by
  cases xs using reverseRecOn with
  | nil => simp [textAll]
  | append_singleton xs x =>
    obtain ⟨t, c, hxt, hc⟩ := (exists_ink_ends (h x (by simp)) (hxs x (by simp))).2
    simpa [textAll, hxt] using (isInk_iff.1 hc).1

lemma isBlank_head?_dropWhile (xs : List Item) :
    ∀ x ∈ (xs.dropWhile isBlank).head?, x.isBlank = false := by
  intro x hx
  have := head?_dropWhile_not isBlank xs
  rw [hx] at this
  simpa using this

lemma trimSpace_textAll (h : ∀ x ∈ xs, x.ok) : trimSpace (textAll xs) = textAll (trim xs) := by
  have hfront : ∀ x ∈ xs.dropWhile isBlank, x.ok = true :=
    fun x hx => h x ((dropWhile_suffix _).subset hx)
  have hback : ∀ x ∈ (xs.dropWhile isBlank).rdropWhile isBlank, x.ok = true :=
    fun x hx => hfront x (( rdropWhile_prefix _ _).subset hx)
  have htrim := reverse_dropWhile_textAll hfront
  rw [trimSpace, trimFront_eq_dropWhile isAscii_of_mem_wideSpaces.1,
    trimFront_eq_dropWhile isAscii_of_mem_wideSpaces.2,
    dropWhile_textAll h, htrim]
  · rfl
  · rw [dropWhile_textAll h, ← getLast?_reverse, htrim]
    refine isAscii_getLast?_textAll hback fun x hx => ?_
    rw [rdropWhile, getLast?_reverse] at hx
    exact isBlank_head?_dropWhile _ x hx
  · rw [dropWhile_textAll h]
    exact isAscii_head?_textAll hfront (isBlank_head?_dropWhile xs)

end Trim

end Blkit
