import Blkit.Normalise.Conditional

/-!
# Nested conditionals

`convertConditionals` pairs the first `if` outside brackets with the first `then` after it
and the first `else` after that.  It produces the block form of an expression exactly when
these are the ones that belong together, at every depth: nothing outside brackets follows
a conditional, its condition has no other `then` and its first branch no other `else`
outside brackets, and no word `if` that is not a keyword comes before a `then` and an
`else`.
-/

namespace Blkit

open List
open Bool (and_eq_true not_eq_true')
open Item (count)
open Keyword (if_ then_ else_)

namespace Tree

/-! ## Words outside brackets -/

/-- The word is among those outside brackets, as a keyword or otherwise. -/
def has (k : Keyword) : Tree → Bool
  | .nil => false
  | .leaf x rest => x.item.isWord k.text || rest.has k
  | .group _ _ rest => rest.has k
  | .cond _ _ _ _ => true

/-- Among the words outside brackets there are a `then` and, after it, an `else`. -/
def thenElse : Tree → Bool
  | .nil => false
  | .leaf x rest => x.item.isWord then_.text && rest.has else_ || rest.thenElse
  | .group _ _ rest => rest.thenElse
  | .cond _ _ _ _ => true

/-- The keywords of a conditional are the first ones, wherever there is a choice. -/
def firstKeywords : Tree → Bool
  | .nil => true
  | .leaf x rest => !(x.item.isWord if_.text && rest.thenElse) && rest.firstKeywords
  | .group _ inner rest => inner.firstKeywords && rest.firstKeywords
  | .cond c a b .nil =>
    !c.has then_ && !a.has else_ && c.firstKeywords && a.firstKeywords && b.firstKeywords
  | .cond _ _ _ _ => false

lemma has_iff (k : Keyword) : (t : Tree) → (t.has k ↔ count k.text t.toks ≠ 0)
  | .nil => by simp [has, toks]
  | .leaf x rest => by
    have ih := rest.has_iff k
    cases hx : x.item.isWord k.text <;> simp [has, toks, hx, ih]
  | .group _ _ rest => by simpa [has, toks] using rest.has_iff k
  | .cond _ _ _ _ => by cases k <;> simp [has, toks]

lemma count_eq_zero {k : Keyword} {t : Tree} (h : t.has k = false) : count k.text t.toks = 0 := by
  by_contra hne
  rw [(t.has_iff k).2 hne] at h
  cases h

lemma thenElse_iff : (t : Tree) → (t.thenElse ↔
    ∃ c a b, t.toks = c ++ then_.item :: (a ++ else_.item :: b))
  | .nil => by simp [thenElse, toks]
  | .leaf x rest => by
    simp only [thenElse, toks, Bool.or_eq_true, and_eq_true, rest.thenElse_iff, has_iff]
    constructor
    · rintro (⟨hx, helse⟩ | ⟨c, a, b, hrest⟩)
      · obtain ⟨a, b, hrest, -⟩ := Keyword.exists_first helse
        exact ⟨[], a, b, by rw [Item.isWord_iff.1 hx, hrest]; rfl⟩
      · exact ⟨x.item :: c, a, b, by rw [hrest]; rfl⟩
    · rintro ⟨_ | ⟨y, c⟩, a, b, heq⟩
      · obtain ⟨hx, hrest⟩ := cons.inj heq
        exact .inl ⟨by simp [hx], by simp [hrest]⟩
      · exact .inr ⟨c, a, b, (cons.inj heq).2⟩
  | .group g inner rest => by
    simp only [thenElse, toks, rest.thenElse_iff]
    constructor
    · rintro ⟨c, a, b, hrest⟩
      exact ⟨_ :: c, a, b, by rw [hrest]; rfl⟩
    · rintro ⟨_ | ⟨y, c⟩, a, b, heq⟩
      · cases (cons.inj heq).1
      · exact ⟨c, a, b, (cons.inj heq).2⟩
  | .cond c a b rest => by
    simp only [thenElse, true_iff]
    exact ⟨if_.item :: c.toks, a.toks, b.toks ++ rest.toks, by simp [toks]⟩

/-! ## When the pass gets it right -/

lemma convItems_leaf (x : Leaf) (T : List Item) :
    convItems (x.item :: T) = x.item :: convItems T := by
  cases x <;> rfl

lemma exists_of_convItems {k : Keyword} {xs p r : List Item}
    (h : convItems xs = p ++ k.item :: r) : ∃ p' r', xs = p' ++ k.item :: r' ∧
    convItems r' = r := by
  rw [convItems_eq_map, map_eq_append_iff] at h
  obtain ⟨p', q, rfl, -, hq⟩ := h
  obtain ⟨x, r', rfl, hx, hr⟩ := map_eq_cons_iff.1 hq
  have hword : x = k.item := by cases x <;> first | exact hx | cases hx
  exact ⟨p', r', by rw [hword], by rw [convItems_eq_map, hr]⟩

/-- Without a `then` and an `else` after it, an `if` does nothing. -/
lemma topConv_if {T : List Item}
    (h : ¬ ∃ c a b, T = c ++ then_.item :: (a ++ else_.item :: b)) :
    topConv (if_.item :: T) = if_.item :: T ∧ topConv T = T := by
  constructor
  all_goals
    refine topConv_of_none (Option.eq_none_iff_forall_not_mem.2 ?_)
    rintro ⟨p, c, a, b⟩ hparts
    obtain ⟨heq, -⟩ := condParts_eq_some hparts
  · cases p with
    | nil => exact h ⟨c, a, b, (cons.inj heq).2⟩
    | cons y p => exact h ⟨p ++ if_.item :: c, a, b, by rw [(cons.inj heq).2]; simp⟩
  · exact h ⟨p ++ if_.item :: c, a, b, by rw [heq]; simp⟩

/-- Of the groups alone the pass makes the block form only of an expression that has no
conditional outside brackets. -/
lemma length_of_blocks_prefix : (t : Tree) → t.blocks <+: convItems t.toks →
    t.blocks.length = t.toks.length
  | .nil, _ => rfl
  | .leaf x rest, h => by
    rw [toks, convItems_leaf, blocks, cons_prefix_cons] at h
    simp [blocks, toks, rest.length_of_blocks_prefix h.2]
  | .group _ _ rest, h => by
    rw [toks, convItems, blocks, cons_prefix_cons] at h
    simp [blocks, toks, rest.length_of_blocks_prefix h.2]
  | .cond _ _ _ _, h => by
    rw [toks, convItems, blocks, cons_prefix_cons] at h
    cases h.1

/-- A part of the items of an expression that ends before one of them is not its block
form. -/
lemma ne_blocks_of_cut {t : Tree} {k : Keyword} {p r : List Item}
    (h : convItems t.toks = p ++ k.item :: r) : p ≠ t.blocks := by
  rintro rfl
  have hlen := t.length_of_blocks_prefix ⟨_, h.symm⟩
  have := congrArg length h
  simp [hlen] at this

lemma blockItem_inj {c a b c' a' b' : List Item} :
    blockItem c a b = blockItem c' a' b' ↔ c = c' ∧ a = a' ∧ b = b' := by
  constructor
  · intro h
    simp only [blockItem, Item.group.injEq, true_and, cons.injEq] at h
    obtain ⟨rfl, htail⟩ := append_inj' h rfl
    simp only [cons.injEq, Item.group.injEq, true_and, and_true] at htail
    exact ⟨rfl, htail⟩
  · rintro ⟨rfl, rfl, rfl⟩
    rfl

/-- What the pass makes of a conditional with something after it. -/
lemma topConv_cond_iff {c a b : Tree} {R D : List Item} :
    topConv (if_.item :: (convItems c.toks ++ then_.item ::
      (convItems a.toks ++ else_.item :: (convItems b.toks ++ R)))) =
        blockItem c.blocks a.blocks b.blocks :: D ↔
      c.has then_ = false ∧ a.has else_ = false ∧ D = [] ∧
        topConv (convItems c.toks) = c.blocks ∧ topConv (convItems a.toks) = a.blocks ∧
        topConv (convItems b.toks ++ R) = b.blocks := by
  obtain ⟨c', a', b', hparts⟩ := exists_condParts (p := []) rfl (convItems c.toks)
    (convItems a.toks) (convItems b.toks ++ R)
  rw [nil_append] at hparts
  obtain ⟨heq, -, hthen, helse⟩ := condParts_eq_some hparts
  have hcut := (cons.inj heq).2
  rw [topConv_of_some hparts, nil_append, cons.injEq, blockItem_inj, eq_comm (a := [])]
  by_cases hc : c.has then_ = false
  · obtain ⟨rfl, hcut'⟩ := Keyword.first_unique hcut (by simp [count_eq_zero hc]) hthen
    by_cases ha : a.has else_ = false
    · obtain ⟨rfl, rfl⟩ := Keyword.first_unique hcut' (by simp [count_eq_zero ha]) helse
      simp only [hc, ha, true_and]
      tauto
    · -- the first branch ends at an `else` of its own
      have hcount := (a.has_iff else_).1 (by simpa using ha)
      rw [← count_convItems] at hcount
      obtain ⟨p, r, hp, hp0⟩ := Keyword.exists_first hcount
      rw [hp, append_assoc, cons_append] at hcut'
      obtain ⟨rfl, -⟩ := Keyword.first_unique hcut' hp0 helse
      have hne := ne_blocks_of_cut hp
      rw [topConv_of_count (.inr (.inr rfl)) hp0]
      simp [ha, hne]
  · -- the condition ends at a `then` of its own
    have hcount := (c.has_iff then_).1 (by simpa using hc)
    rw [← count_convItems] at hcount
    obtain ⟨p, r, hp, hp0⟩ := Keyword.exists_first hcount
    rw [hp, append_assoc, cons_append] at hcut
    obtain ⟨rfl, -⟩ := Keyword.first_unique hcut hp0 hthen
    have hne := ne_blocks_of_cut hp
    rw [topConv_of_count (.inr (.inl rfl)) hp0]
    simp [hc, hne]

lemma blocks_eq_nil_iff {t : Tree} : t.blocks = [] ↔ t = .nil := by
  cases t <;> simp [blocks]

theorem topConv_iff : (t : Tree) → (topConv (convItems t.toks) = t.blocks ↔ t.firstKeywords)
  | .nil => by
    have hnil : topConv [] = [] := topConv_of_count (k := .if_) (.inl rfl) rfl
    simp [toks, convItems, hnil, blocks, firstKeywords]
  | .leaf x rest => by
    have ih := rest.topConv_iff
    rw [toks, convItems_leaf, blocks, firstKeywords, and_eq_true, not_eq_true']
    by_cases hx : x.item.isWord if_.text = true
    · have hitem : x.item = if_.item := Item.isWord_iff.1 hx
      rw [hx, hitem, Bool.true_and]
      by_cases hte : rest.thenElse = true
      · -- the word is taken for the keyword
        obtain ⟨c, a, b, hrest⟩ := rest.thenElse_iff.1 hte
        obtain ⟨c', a', b', hparts⟩ := exists_condParts (p := []) rfl (convItems c)
          (convItems a) (convItems b)
        have hsplit : if_.item :: convItems rest.toks = [] ++ if_.item :: (convItems c ++
            then_.item :: (convItems a ++ else_.item :: convItems b)) := by
          simp [hrest, convItems]
        rw [← hsplit] at hparts
        rw [topConv_of_some hparts, hte]
        simp [blockItem, Keyword.item]
      · have hnone : ¬ ∃ c a b, convItems rest.toks =
            c ++ then_.item :: (a ++ else_.item :: b) := by
          rintro ⟨c, a, b, hconv⟩
          obtain ⟨c, r, hrest, hr⟩ := exists_of_convItems hconv
          obtain ⟨a, b, rfl, -⟩ := exists_of_convItems hr
          exact hte (rest.thenElse_iff.2 ⟨c, a, b, hrest⟩)
        obtain ⟨hif, hself⟩ := topConv_if hnone
        rw [hif, cons_inj_right, ← ih, hself]
        simp [hte]
    · have hcount : count if_.text [x.item] = 0 := by simpa using hx
      rw [← singleton_append, topConv_append hcount, singleton_append, cons_inj_right, ih]
      simp [hx]
  | .group g inner rest => by
    have hinner := inner.topConv_iff
    have hrest := rest.topConv_iff
    rw [toks, convItems, convItem, ← singleton_append, topConv_append rfl, singleton_append,
      blocks, firstKeywords, and_eq_true, cons.injEq, Item.group.injEq, hinner, hrest]
    simp
  | .cond c a b rest => by
    have hc := c.topConv_iff
    have ha := a.topConv_iff
    have hb := b.topConv_iff
    have htoks : convItems (cond c a b rest).toks = if_.item :: (convItems c.toks ++
        then_.item :: (convItems a.toks ++ else_.item ::
          (convItems b.toks ++ convItems rest.toks))) := by
      simp [toks, convItems]
    rw [htoks, blocks, topConv_cond_iff, blocks_eq_nil_iff]
    cases rest with
    | nil =>
      simp only [toks, convItems, append_nil, hc, ha, hb, firstKeywords, and_eq_true,
        not_eq_true', true_and, and_assoc]
    | _ => simp [firstKeywords]

end Tree

/-- An expression and a text it is written in. -/
structure Source where
  tree : Tree
  text : Text
  written : Written tree.toks text

/-- The conditionals of an expression keep their structure exactly when the pass is right
to take the first keywords. -/
theorem Source.convertConditionals_iff (S : Source) :
    Written S.tree.blocks (convertConditionals S.text) ↔ S.tree.firstKeywords = true := by
  have hreads : Reads (convertConditionals S.text) (conv S.tree.toks) := by
    obtain ⟨xs, hxs, hok, herase⟩ := (reads_iff S.tree.tight_toks).2 S.written
    rw [← hxs, ← herase]
    exact reads_convertConditionalsUpTo _ hok (Nat.lt_succ_of_le (weightAll_le xs hok))
  rw [← S.tree.topConv_iff, Written, ← reads_iff S.tree.tight_blocks]
  constructor
  · intro h
    exact hreads.unique h
  · intro h
    rwa [conv, h] at hreads

/-- The expression that is one word. -/
def Tree.word (w : String) : Tree := .leaf (.word w.toList) .nil

/-- `if a then if b then c else d else e`. -/
def nestedCond : Tree :=
  .cond (.word "a") (.cond (.word "b") (.word "c") (.word "d") .nil) (.word "e") .nil

/-- A conditional in the first branch: the pass takes the inner `else` for the outer one,
and leaves a `then` behind. -/
theorem nestedCond_torn :
    Written nestedCond.toks "if a then if b then c else d else e".toList ∧
    convertConditionals "if a then if b then c else d else e".toList =
      "(if a \x7b if b then c \x7d else \x7b d else e \x7d)".toList ∧
    ¬ Written nestedCond.blocks
      (convertConditionals "if a then if b then c else d else e".toList) := by
  decide +kernel

end Blkit
