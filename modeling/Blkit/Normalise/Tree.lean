import Blkit.Text.Layout

/-!
# Expressions and their conditionals

What `convertConditionals` sees of an expression: words, literals, operators and
bracketed groups, one after the other, and among them the conditionals.  `Tree` says
which `if`, `then` and `else` belong together and where a conditional ends; everything
else, from member access and indexes to dictionaries, ranges and comprehensions, is the
items it is written with.  A word is a keyword of a conditional only where the tree says
so: the name of a member may be `then`.  A text is written for a tree when it reads as
the items of the tree.
-/

namespace Blkit

open Item (tightAll tight eraseAll count flatAll)

/-- The keywords of a conditional. -/
inductive Keyword where
  | if_ | then_ | else_
deriving DecidableEq, Repr

namespace Keyword

/-- How the keyword is written. -/
def text : Keyword → Text
  | .if_ => "if".toList
  | .then_ => "then".toList
  | .else_ => "else".toList

lemma isWord_text (k : Keyword) : IsWord k.text := isWord_of_ok (by cases k <;> rfl)

/-- The keyword as an item. -/
def item (k : Keyword) : Item := .word k.text

@[simp] lemma isWord_item (k k' : Keyword) : k'.item.isWord k.text = decide (k' = k) := by
  cases k <;> cases k' <;> rfl

/-- Where the first occurrence of a keyword splits the items. -/
lemma exists_first {k : Keyword} {xs : List Item} (h : count k.text xs ≠ 0) :
    ∃ a b, xs = a ++ k.item :: b ∧ count k.text a = 0 := Item.exists_first h

lemma first_unique {k : Keyword} {a b a' b' : List Item}
    (h : a ++ k.item :: b = a' ++ k.item :: b') (ha : count k.text a = 0)
    (ha' : count k.text a' = 0) : a = a' ∧ b = b' := Item.first_unique h ha ha'

/-- Where a keyword splits the items, it splits their layout. -/
lemma exists_of_eraseAll {k : Keyword} {xs A B : List Item} (h : eraseAll xs = A ++ k.item :: B) :
    ∃ a b, xs = a ++ k.item :: b ∧ eraseAll a = A ∧ eraseAll b = B := by
  induction xs generalizing A with
  | nil => simp [eraseAll] at h
  | cons x xs ih =>
    rw [eraseAll] at h
    by_cases hx : x.erase = []
    · rw [hx, List.nil_append] at h
      obtain ⟨a, b, rfl, ha, hb⟩ := ih h
      exact ⟨x :: a, b, rfl, by rw [eraseAll, hx, ha, List.nil_append], hb⟩
    · obtain ⟨y, hy⟩ : ∃ y, x.erase = [y] := by
        cases x <;> first | exact ⟨_, rfl⟩ | exact absurd rfl hx
      rw [hy, List.singleton_append] at h
      cases A with
      | nil =>
        rw [List.nil_append, List.cons.injEq] at h
        obtain ⟨rfl, rfl⟩ := h
        have hword : x = k.item := by
          cases x with
          | word w => exact List.singleton_inj.1 hy
          | _ => simp [Item.erase, item] at hy
        exact ⟨[], xs, by rw [hword, List.nil_append], rfl, rfl⟩
      | cons z A =>
        rw [List.cons_append, List.cons.injEq] at h
        obtain ⟨rfl, h⟩ := h
        obtain ⟨a, b, rfl, ha, hb⟩ := ih h
        exact ⟨x :: a, b, rfl, by rw [eraseAll, hy, ha, List.singleton_append], hb⟩

@[simp] lemma erase_item (k : Keyword) : k.item.erase = [k.item] := rfl

end Keyword

/-- A word, a string literal or an operator. -/
inductive Leaf where
  | word (w : Text)
  | str (body : Text)
  | op (s : Text)
deriving DecidableEq, Repr

/-- The item it is. -/
def Leaf.item : Leaf → Item
  | .word w => .word w
  | .str body => .str body
  | .op s => .op s

/-- An expression, from left to right: what comes first, and the rest. -/
inductive Tree where
  | nil
  | leaf (x : Leaf) (rest : Tree)
  | group (b : Bracket) (inner rest : Tree)
  | cond (c a b rest : Tree)

/-- The items of the block form `(if c { a } else { b })`. -/
def blockItem (c a b : List Item) : Item :=
  .group .paren (Keyword.if_.item ::
    (c ++ [.group .brace a, Keyword.else_.item, .group .brace b]))

namespace Tree

/-- The items an expression is written with. -/
def toks : Tree → List Item
  | .nil => []
  | .leaf x rest => x.item :: rest.toks
  | .group b inner rest => .group b inner.toks :: rest.toks
  | .cond c a b rest =>
    Keyword.if_.item :: (c.toks ++ Keyword.then_.item ::
      (a.toks ++ Keyword.else_.item :: (b.toks ++ rest.toks)))

/-- The items of the expression with every conditional in block form. -/
def blocks : Tree → List Item
  | .nil => []
  | .leaf x rest => x.item :: rest.blocks
  | .group b inner rest => .group b inner.blocks :: rest.blocks
  | .cond c a b rest => blockItem c.blocks a.blocks b.blocks :: rest.blocks

lemma tight_leaf (x : Leaf) : tight x.item := by cases x <;> rfl

lemma tight_toks : (t : Tree) → tightAll t.toks
  | .nil => rfl
  | .leaf x rest => by simp [toks, tightAll, tight_leaf, rest.tight_toks]
  | .group _ inner rest => by simp [toks, tightAll, tight, inner.tight_toks, rest.tight_toks]
  | .cond c a b rest => by
    simp [toks, tightAll, tight, Keyword.item, c.tight_toks, a.tight_toks, b.tight_toks,
      rest.tight_toks]

lemma tight_blocks : (t : Tree) → tightAll t.blocks
  | .nil => rfl
  | .leaf x rest => by simp [blocks, tightAll, tight_leaf, rest.tight_blocks]
  | .group _ inner rest => by
    simp [blocks, tightAll, tight, inner.tight_blocks, rest.tight_blocks]
  | .cond c a b rest => by
    simp [blocks, blockItem, tightAll, tight, Keyword.item, c.tight_blocks, a.tight_blocks,
      b.tight_blocks, rest.tight_blocks]

end Tree

/-- The text is written with these items. -/
def Written (T : List Item) (s : Text) : Prop := lex s = flatAll T

instance (T : List Item) (s : Text) : Decidable (Written T s) :=
  inferInstanceAs (Decidable (lex s = flatAll T))

end Blkit
