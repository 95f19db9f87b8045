import Blkit.Normalise.Tree

/-!
# Conditionals

`convertConditionals` rewrites `if c then a else b` to `(if c { a } else { b })`.  It
looks for the first `if` outside brackets, the first `then` after it and the first
`else` after that.  On items the pass is `conv`: whatever the layout, the text it
produces reads as these items.
-/

namespace Blkit

open Item
open List (append_assoc length_append cons_append)
open Keyword (if_ then_ else_)

/-! ## The pass -/

/-- The body of `convertConditionals` on a text whose groups have been dealt with;
`conv` is the recursive call. -/
def convertTop (conv : Text → Text) (s : Text) : Text :=
  match indexTopLevelKeyword s "if".toList 0 with
  | none => s
  | some ifIdx =>
    match indexTopLevelKeyword s "then".toList (ifIdx + 2) with
    | none => s
    | some thenIdx =>
      match indexTopLevelKeyword s "else".toList (thenIdx + 4) with
      | none => s
      | some elseIdx =>
        let pre := s.take ifIdx
        let cond := trimSpace ((s.take thenIdx).drop (ifIdx + 2))
        let thenB := trimSpace ((s.take elseIdx).drop (thenIdx + 4))
        let elseB := trimSpace (s.drop (elseIdx + 4))
        pre ++ "(if ".toList ++ conv cond ++ " \x7b ".toList ++ conv thenB ++
          " \x7d else \x7b ".toList ++ conv elseB ++ " \x7d)".toList

/-- `convertConditionals`, with a bound on the depth of the recursion. -/
def convertConditionalsUpTo : Nat → Text → Text
  | 0, s => s
  | n + 1, s =>
    convertTop (convertConditionalsUpTo n) (mapTopLevelGroups s (convertConditionalsUpTo n))

/-- `convertConditionals`.  The depth never exceeds the length of the text. -/
def convertConditionals (s : Text) : Text := convertConditionalsUpTo (s.length + 1) s

/-! ## The pass on items -/

/-- The parts the pass finds: what is before the first `if`, what is between it and
the next `then`, what is between that and the next `else`, and the rest. -/
def condParts (T : List Item) : Option (List Item × List Item × List Item × List Item) := do
  let (p, r) ← cut if_.text T
  let (c, r) ← cut then_.text r
  let (a, b) ← cut else_.text r
  return (p, c, a, b)

section Parts

variable {T p c a b : List Item}

lemma condParts_eq_some (h : condParts T = some (p, c, a, b)) :
    T = p ++ if_.item :: (c ++ then_.item :: (a ++ else_.item :: b)) ∧
      count if_.text p = 0 ∧ count then_.text c = 0 ∧
      count else_.text a = 0 := by
  simp only [condParts, Option.bind_eq_bind, Option.bind_eq_some_iff, Option.pure_def,
    Option.some.injEq, Prod.mk.injEq, Prod.exists] at h
  obtain ⟨p', r, hif, c', r', hthen, a', b', helse, rfl, rfl, rfl, rfl⟩ := h
  obtain ⟨rfl, hp⟩ := eq_of_cut hif
  obtain ⟨rfl, hc⟩ := eq_of_cut hthen
  obtain ⟨rfl, ha⟩ := eq_of_cut helse
  exact ⟨rfl, hp, hc, ha⟩

lemma condParts_append (hp : count if_.text p = 0) (hc : count then_.text c = 0)
    (ha : count else_.text a = 0) (b : List Item) :
    condParts (p ++ if_.item :: (c ++ then_.item :: (a ++ else_.item :: b))) =
      some (p, c, a, b) := by
  simp [condParts, Keyword.item, cut_append hp, cut_append hc, cut_append ha]

/-- With all three in order there is something, though perhaps not these parts. -/
lemma exists_condParts (hp : count if_.text p = 0) (c a b : List Item) :
    ∃ c' a' b', condParts (p ++ if_.item ::
      (c ++ then_.item :: (a ++ else_.item :: b))) = some (p, c', a', b') := by
  have hthen : count then_.text
      (c ++ then_.item :: (a ++ else_.item :: b)) ≠ 0 := by simp
  obtain ⟨c', r, hr, hc'⟩ := Keyword.exists_first hthen
  have helse : count else_.text r ≠ 0 := by
    by_cases hc : count then_.text c = 0
    · obtain ⟨rfl, rfl⟩ := Keyword.first_unique hr hc hc'
      simp
    · obtain ⟨c₁, c₂, rfl, hc₁⟩ := Keyword.exists_first hc
      rw [append_assoc, cons_append] at hr
      obtain ⟨-, rfl⟩ := Keyword.first_unique hr hc₁ hc'
      simp
  obtain ⟨a', b', rfl, ha'⟩ := Keyword.exists_first helse
  exact ⟨c', a', b', by rw [hr]; exact condParts_append hp hc' ha' b'⟩

end Parts

/-- The pass on items whose groups have been dealt with. -/
def topConv (T : List Item) : List Item :=
  match _h : condParts T with
  | none => T
  | some (p, c, a, b) => p ++ [blockItem (topConv c) (topConv a) (topConv b)]
termination_by T.length
decreasing_by
  all_goals
    obtain ⟨rfl, -⟩ := condParts_eq_some _h
    simp
    omega

variable {T : List Item}

lemma topConv_of_none (h : condParts T = none) : topConv T = T := by
  rw [topConv]
  split
  · rfl
  · simp_all

variable {p c a b : List Item}

lemma topConv_of_some (h : condParts T = some (p, c, a, b)) :
    topConv T = p ++ [blockItem (topConv c) (topConv a) (topConv b)] := by
  rw [topConv]
  split <;> simp_all

lemma topConv_of_count {k : Keyword} (hk : k = .if_ ∨ k = .then_ ∨ k = .else_)
    (h : count k.text T = 0) : topConv T = T := by
  refine topConv_of_none (Option.eq_none_iff_forall_not_mem.2 ?_)
  rintro ⟨p, c, a, b⟩ hparts
  obtain ⟨rfl, -⟩ := condParts_eq_some hparts
  rcases hk with rfl | rfl | rfl <;> simp at h

/-- What is before the first `if` stays. -/
lemma topConv_append {x : List Item} (hx : count if_.text x = 0) (y : List Item) :
    topConv (x ++ y) = x ++ topConv y := by
  cases h : condParts y with
  | none =>
    rw [topConv_of_none h, topConv_of_none]
    cases hparts : condParts (x ++ y) with
    | none => rfl
    | some parts =>
      exfalso
      obtain ⟨p, c, a, b⟩ := parts
      obtain ⟨heq, hp, -⟩ := condParts_eq_some hparts
      have hif : count if_.text y ≠ 0 := by
        intro hy
        have := congrArg (count if_.text) heq
        simp [hx, hy] at this
      obtain ⟨y₁, y₂, rfl, hy₁⟩ := Keyword.exists_first hif
      rw [← append_assoc] at heq
      obtain ⟨rfl, rfl⟩ := Keyword.first_unique heq (by simp [hx, hy₁]) hp
      obtain ⟨_, _, _, hsome⟩ := exists_condParts hy₁ c a b
      rw [hsome] at h
      cases h
  | some parts =>
    obtain ⟨p, c, a, b⟩ := parts
    obtain ⟨rfl, hp, hc, ha⟩ := condParts_eq_some h
    have happ := condParts_append (p := x ++ p) (by simp [hx, hp]) hc ha b
    rw [append_assoc] at happ
    rw [topConv_of_some h, topConv_of_some happ, append_assoc]

mutual

/-- The pass on an item. -/
def convItem : Item → Item
  | .group b inner => .group b (topConv (convItems inner))
  | .word w => .word w
  | .str body => .str body
  | .op s => .op s
  | .blank c => .blank c

/-- The pass on the groups among the items. -/
def convItems : List Item → List Item
  | [] => []
  | x :: xs => convItem x :: convItems xs

end

/-- The pass on items. -/
def conv (T : List Item) : List Item := topConv (convItems T)

@[simp] lemma convItems_append (xs ys : List Item) :
    convItems (xs ++ ys) = convItems xs ++ convItems ys := by
  induction xs with
  | nil => rfl
  | cons x xs ih => simp [convItems, ih]

lemma convItems_eq_map (xs : List Item) : convItems xs = xs.map (mapGroup conv) := by
  induction xs with
  | nil => rfl
  | cons x xs ih =>
    rw [convItems, List.map_cons, ih]
    cases x <;> rfl

@[simp] lemma length_convItems (xs : List Item) : (convItems xs).length = xs.length := by
  simp [convItems_eq_map]

@[simp] lemma convItem_keyword (k : Keyword) : convItem k.item = k.item := rfl

@[simp] lemma isWord_convItem (w : Text) (x : Item) : (convItem x).isWord w = x.isWord w := by
  cases x <;> rfl

@[simp] lemma count_convItems (w : Text) (xs : List Item) :
    count w (convItems xs) = count w xs := by
  induction xs with
  | nil => rfl
  | cons x xs ih => simp [convItems, ih]

/-! ### Converted items stay as they are -/

variable {xs : List Item}

lemma convItems_append_eq {ys : List Item} :
    convItems (xs ++ ys) = xs ++ ys ↔ convItems xs = xs ∧ convItems ys = ys := by
  rw [convItems_append]
  exact ⟨fun h => List.append_inj h (by simp), fun h => by rw [h.1, h.2]⟩

lemma convItems_cons_eq {x : Item} :
    convItems (x :: xs) = x :: xs ↔ convItem x = x ∧ convItems xs = xs := by
  rw [convItems, List.cons.injEq]

/-- The parts of items that have been dealt with have been dealt with. -/
lemma convItems_parts (hT : convItems T = T) (h : condParts T = some (p, c, a, b)) :
    convItems p = p ∧ convItems c = c ∧ convItems a = a ∧ convItems b = b := by
  obtain ⟨rfl, -⟩ := condParts_eq_some h
  simp only [convItems_append_eq, convItems_cons_eq] at hT
  exact ⟨hT.1, hT.2.2.1, hT.2.2.2.2.1, hT.2.2.2.2.2.2⟩

/-- The pass leaves nothing outside brackets to do. -/
lemma topConv_topConv (T : List Item) : topConv (topConv T) = topConv T := by
  cases h : condParts T with
  | none => rw [topConv_of_none h, topConv_of_none h]
  | some parts =>
    obtain ⟨p, c, a, b⟩ := parts
    refine topConv_of_count (.inl rfl) ?_
    rw [topConv_of_some h]
    simp [(condParts_eq_some h).2.1, blockItem]

/-- The pass leaves nothing inside brackets to do. -/
lemma convItems_topConv (hT : convItems T = T) : convItems (topConv T) = topConv T := by
  induction T using topConv.induct with
  | case1 T h => rw [topConv_of_none h, hT]
  | case2 T p c a b h hc ha hb =>
    obtain ⟨hp', hc', ha', hb'⟩ := convItems_parts hT h
    obtain ⟨-, -, hthen, -⟩ := condParts_eq_some h
    -- There is no `then` left in the condition, so the block is not converted again.
    have hcond : topConv (if_.item :: (topConv c ++
        [.group .brace (topConv a), else_.item, .group .brace (topConv b)])) =
        if_.item :: (topConv c ++
          [.group .brace (topConv a), else_.item, .group .brace (topConv b)]) := by
      refine topConv_of_count (.inr (.inl rfl)) ?_
      rw [topConv_of_count (.inr (.inl rfl)) hthen]
      simp [hthen]
    have hblock : convItem (blockItem (topConv c) (topConv a) (topConv b)) =
        blockItem (topConv c) (topConv a) (topConv b) := by
      simp only [blockItem, convItem, convItems, convItems_append, convItem_keyword, hc hc', ha ha',
        hb hb', topConv_topConv, hcond]
    rw [topConv_of_some h, convItems_append_eq, convItems_cons_eq]
    exact ⟨hp', hblock, rfl⟩

/-! ### How deep the recursion goes -/

mutual

/-- A bound on the depth of the recursion.  A `then` counts for the brackets that
come with it. -/
def weight : Item → Nat
  | .word w => if w == then_.text then 3 else 1
  | .blank _ => 0
  | .group _ inner => weightAll inner + 1
  | .str _ => 1
  | .op _ => 1

/-- The sum of the weights. -/
def weightAll : List Item → Nat
  | [] => 0
  | x :: xs => weight x + weightAll xs

end

@[simp] lemma weightAll_append (xs ys : List Item) :
    weightAll (xs ++ ys) = weightAll xs + weightAll ys := by
  induction xs with
  | nil => simp [weightAll]
  | cons x xs ih => simp [weightAll, ih, Nat.add_assoc]

lemma weight_keyword (k : Keyword) : weight k.item = if k = .then_ then 3 else 1 := by
  cases k <;> rfl

lemma weightAll_topConv (T : List Item) : weightAll (topConv T) = weightAll T := by
  induction T using topConv.induct with
  | case1 T h => rw [topConv_of_none h]
  | case2 T p c a b h hc ha hb =>
    rw [topConv_of_some h, (condParts_eq_some h).1]
    simp [weightAll, blockItem, weight, weight_keyword, hc, ha, hb]
    omega

mutual

theorem convItem_spec : (x : Item) → convItem (convItem x) = convItem x ∧
    weight (convItem x) = weight x
  | .group b inner => by
    obtain ⟨hconv, hweight⟩ := convItems_spec inner
    simp [convItem, weight, convItems_topConv hconv, topConv_topConv, weightAll_topConv, hweight]
  | .word _ | .str _ | .op _ | .blank _ => ⟨rfl, rfl⟩

theorem convItems_spec : (xs : List Item) →
    convItems (convItems xs) = convItems xs ∧ weightAll (convItems xs) = weightAll xs
  | [] => ⟨rfl, rfl⟩
  | x :: xs => by simp [convItems, weightAll, convItem_spec x, convItems_spec xs]

end

mutual

theorem weightAll_erase : (x : Item) → weightAll x.erase = weight x
  | .group b inner => by simp [erase, weightAll, weight, weightAll_eraseAll inner]
  | .word _ | .str _ | .op _ | .blank _ => rfl

theorem weightAll_eraseAll : (xs : List Item) → weightAll (eraseAll xs) = weightAll xs
  | [] => rfl
  | x :: xs => by
    rw [eraseAll, weightAll_append, weightAll, weightAll_erase x, weightAll_eraseAll xs]

end

mutual

theorem weight_le : (x : Item) → x.ok → weight x ≤ x.text.length
  | .word w, hok => by
    have hpos := List.length_pos_iff.2 (isWord_of_ok hok).1
    rw [weight, text]
    split
    · rename_i hw
      rw [beq_iff_eq.1 hw]
      decide
    · exact hpos
  | .str _, _ => by simp [weight, text]
  | .op [], hok => by simp [ok, wideOps] at hok
  | .op (_ :: _), _ => by simp [weight, text]
  | .blank _, _ => by simp [weight]
  | .group b inner, hok => by
    have := weightAll_le inner hok
    simp only [weight, text, length_append, List.length_cons]
    omega

theorem weightAll_le : (xs : List Item) → {Q : Text} → okAll xs Q →
    weightAll xs ≤ (textAll xs).length
  | [], _, _ => by simp [weightAll]
  | x :: xs, Q, hok => by
    simp only [okAll, Bool.and_eq_true] at hok
    have hx := weight_le x hok.1.1
    have hxs := weightAll_le xs hok.2
    simp only [weightAll, textAll, length_append]
    omega

end

/-! ### Texts and items -/

/-- The block form of texts. -/
lemma reads_block {pre c a b : Text} {P C A B : List Item} (hpre : Reads pre P)
    (hc : Reads c C) (ha : Reads a A) (hb : Reads b B) :
    Reads (pre ++ "(if ".toList ++ c ++ " \x7b ".toList ++ a ++ " \x7d else \x7b ".toList ++
      b ++ " \x7d)".toList) (P ++ [blockItem C A B]) := by
  have hif : Reads "if".toList [if_.item] := Reads.word if_.isWord_text
  have helse : Reads "else".toList [else_.item] := Reads.word else_.isWord_text
  have hA : Reads _ [.group .brace A] := (ha.blank_cons.append_blank).group .brace
  have hB : Reads _ [.group .brace B] := (hb.blank_cons.append_blank).group .brace
  have htail := hA.append (helse.append hB.blank_cons (stops_blank _)).blank_cons (stops_blank _)
  have hblock := ((hif.append hc.blank_cons (stops_blank _)).append htail.blank_cons
    (stops_blank _)).group .paren
  have hall := hpre.append hblock (stops_cons (.inr (.inr (.inl rfl))) _)
  convert hall using 1
  · simp [Bracket.opening, Bracket.closing]
  · simp [blockItem]

lemma weightAll_of_mem {b : Bracket} {inner : List Item}
    (h : Item.group b inner ∈ xs) : weightAll inner < weightAll xs := by
  induction xs with
  | nil => cases h
  | cons x xs ih =>
    rcases List.mem_cons.1 h with rfl | h
    · simp only [weightAll, weight]
      omega
    · have := ih h
      simp only [weightAll]
      omega

/-- The recursive calls: on the parts of a text whose groups have been dealt with. -/
lemma reads_part {n : Nat} {q : List Item} {Q : Text} (hok : okAll q Q)
    (hfix : convItems (eraseAll q) = eraseAll q) (hn : weightAll q < n)
    (ih : ∀ {xs : List Item}, okAll xs [] → weightAll xs < n →
      Reads (convertConditionalsUpTo n (textAll xs)) (conv (eraseAll xs))) :
    Reads (convertConditionalsUpTo n (trimSpace (textAll q))) (topConv (eraseAll q)) := by
  have hw : weightAll (trim q) < n := by
    rw [← weightAll_eraseAll, eraseAll_trim, weightAll_eraseAll]
    exact hn
  have h := ih (okAll_trim hok) hw
  rwa [eraseAll_trim, conv, hfix, ← trimSpace_textAll (ok_of_okAll hok)] at h

section Top

variable {f : Text → Text} {p c a b : List Item} {r : List Item}

/-- The first `if` outside brackets, and the first `then` after it. -/
lemma index_if (hok : okAll (p ++ if_.item :: r) []) (hp : count if_.text p = 0) :
    indexTopLevelKeyword (textAll (p ++ if_.item :: r)) "if".toList 0 =
      some (textAll p).length := by
  have h := indexTopLevelKeyword_some if_.isWord_text (P := []) hok (fun _ _ _ => rfl) hp
  rwa [List.nil_append, List.length_nil, Nat.zero_add] at h

lemma index_then (hok : okAll (p ++ if_.item :: (c ++ then_.item :: r)) [])
    (hc : count then_.text c = 0) :
    indexTopLevelKeyword (textAll (p ++ if_.item :: (c ++ then_.item :: r)))
      "then".toList ((textAll p).length + 2) =
      some ((textAll p).length + 2 + (textAll c).length) :=
  indexTopLevelKeyword_after_some then_.isWord_text hok hc

lemma length_then (p c : List Item) :
    (textAll (p ++ if_.item :: c)).length + then_.item.text.length =
      (textAll p).length + 2 + (textAll c).length + 4 := by
  have h₁ : if_.item.text.length = 2 := rfl
  have h₂ : then_.item.text.length = 4 := rfl
  rw [textAll_append, textAll, length_append, length_append, h₁, h₂, Nat.add_assoc,
    Nat.add_assoc, Nat.add_assoc, Nat.add_assoc]

lemma index_else_none (hok : okAll (p ++ if_.item :: (c ++ then_.item :: r)) [])
    (hr : count else_.text r = 0) :
    indexTopLevelKeyword (textAll (p ++ if_.item :: (c ++ then_.item :: r)))
      "else".toList ((textAll p).length + 2 + (textAll c).length + 4) = none := by
  rw [← cons_append, ← append_assoc] at hok ⊢
  rw [← length_then]
  exact indexTopLevelKeyword_after_none else_.isWord_text hok hr

lemma index_else (hok : okAll (p ++ if_.item :: (c ++ then_.item :: (a ++ else_.item :: b))) [])
    (ha : count else_.text a = 0) :
    indexTopLevelKeyword (textAll (p ++ if_.item ::
      (c ++ then_.item :: (a ++ else_.item :: b)))) "else".toList
      ((textAll p).length + 2 + (textAll c).length + 4) =
      some ((textAll p).length + 2 + (textAll c).length + 4 + (textAll a).length) := by
  rw [← cons_append, ← append_assoc] at hok ⊢
  rw [← length_then]
  exact indexTopLevelKeyword_after_some else_.isWord_text hok ha

/-- Without the keywords the text stays as it is. -/
lemma convertTop_eq_self {ys : List Item} (hys : okAll ys [])
    (h : condParts (eraseAll ys) = none) : convertTop f (textAll ys) = textAll ys := by
  by_cases hif : count if_.text ys = 0
  · have hidx : indexTopLevelKeyword _ "if".toList 0 = none :=
      indexTopLevelKeyword_none if_.isWord_text hys (P := []) (fun _ _ _ => rfl) hif
    rw [List.nil_append] at hidx
    rw [convertTop, hidx]
  obtain ⟨p, r, rfl, hp⟩ := Keyword.exists_first hif
  rw [convertTop, index_if hys hp]
  by_cases hthen : count then_.text r = 0
  · have hidx : indexTopLevelKeyword _ "then".toList ((textAll p).length + 2) = none :=
      indexTopLevelKeyword_after_none then_.isWord_text hys hthen
    simp only [hidx]
  obtain ⟨c, r, rfl, hc⟩ := Keyword.exists_first hthen
  simp only [index_then hys hc]
  by_cases helse : count else_.text r = 0
  · simp only [index_else_none hys helse]
  -- With all three there would be something to convert.
  obtain ⟨a, b, rfl, -⟩ := Keyword.exists_first helse
  obtain ⟨_, _, _, hsome⟩ := exists_condParts (p := eraseAll p) (by simpa using hp) (eraseAll c)
    (eraseAll a) (eraseAll b)
  simp [eraseAll] at h
  rw [h] at hsome
  cases hsome

/-- With them its parts are converted. -/
lemma convertTop_parts (hok : okAll (p ++ if_.item ::
      (c ++ then_.item :: (a ++ else_.item :: b))) [])
    (hp : count if_.text p = 0) (hc : count then_.text c = 0)
    (ha : count else_.text a = 0) :
    convertTop f (textAll (p ++ if_.item :: (c ++ then_.item :: (a ++ else_.item :: b)))) =
      textAll p ++ "(if ".toList ++ f (trimSpace (textAll c)) ++ " \x7b ".toList ++
        f (trimSpace (textAll a)) ++ " \x7d else \x7b ".toList ++ f (trimSpace (textAll b)) ++
        " \x7d)".toList := by
  rw [convertTop, index_if hok hp]
  simp only [index_then hok hc, index_else hok ha]
  have htext : textAll (p ++ if_.item :: (c ++ then_.item :: (a ++ else_.item :: b))) =
      textAll p ++ ("if".toList ++ (textAll c ++ ("then".toList ++ (textAll a ++
        ("else".toList ++ textAll b))))) := by
    simp only [textAll_append, textAll]
    rfl
  rw [htext, List.take_left]
  rw [slice_eq (a := textAll p ++ "if".toList) (b := textAll c) (by simp; rfl) (by simp) (by simp),
    slice_eq (a := textAll p ++ ("if".toList ++ (textAll c ++ "then".toList))) (b := textAll a)
      (by simp; rfl) (by simp; omega) (by simp; omega),
    drop_eq (a := textAll p ++ ("if".toList ++ (textAll c ++ ("then".toList ++ (textAll a ++
      "else".toList))))) (b := textAll b) (by simp) (by simp; omega)]

end Top

lemma reads_convertConditionalsUpTo (n : Nat) (hok : okAll xs []) (hn : weightAll xs < n) :
    Reads (convertConditionalsUpTo n (textAll xs)) (conv (eraseAll xs)) := by
  induction n generalizing xs with
  | zero => exact absurd hn (by omega)
  | succ n ih =>
    have hgroups (b : Bracket) (inner : List Item) (hmem : Item.group b inner ∈ xs) :
        Reads (convertConditionalsUpTo n (textAll inner)) (conv (eraseAll inner)) := by
      have hinner : okAll inner [b.closing] = true := ok_of_okAll hok _ hmem
      have hlt := weightAll_of_mem hmem
      exact ih (okAll_of_stops stops_nil hinner) (by omega)
    obtain ⟨ys, htext, hys, -, herase⟩ := mapTopLevelGroups_reads hok hgroups
    rw [← convItems_eq_map] at herase
    have hfix : convItems (eraseAll ys) = eraseAll ys := by rw [herase, (convItems_spec _).1]
    have hw : weightAll ys < n + 1 := by
      rw [← weightAll_eraseAll, herase, (convItems_spec _).2, weightAll_eraseAll]
      exact hn
    rw [convertConditionalsUpTo, ← htext, conv, ← herase]
    cases hparts : condParts (eraseAll ys) with
    | none =>
      rw [convertTop_eq_self hys hparts, topConv_of_none hparts]
      exact ⟨ys, rfl, hys, rfl⟩
    | some parts =>
      obtain ⟨P, C, A, B⟩ := parts
      obtain ⟨heq, hP, hC, hA⟩ := condParts_eq_some hparts
      obtain ⟨p, r, rfl, rfl, hr⟩ := Keyword.exists_of_eraseAll heq
      obtain ⟨c, r', rfl, rfl, hr'⟩ := Keyword.exists_of_eraseAll hr
      obtain ⟨a, b, rfl, rfl, rfl⟩ := Keyword.exists_of_eraseAll hr'
      obtain ⟨-, hfc, hfa, hfb⟩ := convItems_parts hfix hparts
      rw [count_eraseAll] at hP hC hA
      rw [convertTop_parts hys hP hC hA, topConv_of_some hparts]
      have hw' : weightAll c < n ∧ weightAll a < n ∧ weightAll b < n := by
        simp only [weightAll_append, weightAll, weight_keyword] at hw
        refine ⟨?_, ?_, ?_⟩ <;> simp at hw <;> omega
      obtain ⟨hp', hys'⟩ := okAll_of_append hys
      simp only [okAll, Bool.and_eq_true, okAll_append] at hys'
      exact reads_block ⟨p, rfl, hp', rfl⟩ (reads_part hys'.2.1 hfc hw'.1 ih)
        (reads_part hys'.2.2.2.1 hfa hw'.2.1 ih) (reads_part hys'.2.2.2.2.2 hfb hw'.2.2 ih)

end Blkit
