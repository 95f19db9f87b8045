import Blkit.Expr.Free
import Blkit.Expr.Patch

/-!
# What the patcher does to names

The patched tree looks up no names that the parsed tree does not: the names a
lowering brings in itself, `item` and those of lowered connectives, are bound where
they are used.
-/

namespace Blkit

open List

namespace Node

/-! ## The names of lowered connectives -/

/-- The name that `lowerLogical` binds. -/
def scName (k : Nat) : String := "__sc" ++ toString k

lemma take_scName (k : Nat) : (scName k).toList.take 2 = ['_', '_'] := by
  simp [scName]

lemma scName_ne_item (k : Nat) : scName k ≠ "item" := by
  intro h
  have := take_scName k
  rw [h] at this
  exact absurd this (by decide)

lemma scName_injective : Function.Injective scName := by
  intro j k h
  have hdigits : Nat.toDigits 10 j = Nat.toDigits 10 k := by
    simpa [scName, Nat.toList_repr] using congrArg String.toList h
  rw [← Nat.ofDigitChars_ten_toDigits (n := j), hdigits, Nat.ofDigitChars_ten_toDigits]

lemma mem_reads_lowerLogical (l r : Node) (k : Nat) {guardFn combineFn x : String} :
    x ∈ (lowerLogical l r guardFn combineFn k).reads ↔
      x ∈ l.reads ∨ x ∈ r.reads ∧ x ≠ scName k := by
  rw [lowerLogical, ← scName]
  simp only [reads, Node.fn, calleeName, readsAll, append_nil, mem_append,
    mem_filter, mem_singleton, decide_eq_true_eq]
  tauto

/-! ## Lists of trees and calls -/

variable {x : String}

lemma mem_readsAll {ns : List Node} : x ∈ readsAll ns ↔ ∃ n ∈ ns, x ∈ n.reads := by
  induction ns with
  | nil => simp [readsAll]
  | cons n ns ih => simp [readsAll, ih]

variable {args : List Node}

lemma mem_reads_fn {f : String} : x ∈ (fn f args).reads ↔ ∃ n ∈ args, x ∈ n.reads := by
  simp only [Node.fn, reads, calleeName, mem_readsAll]

variable {callee : Node}

/-- A call reads at most its callee and its arguments, and always its arguments. -/
lemma mem_reads_call (h : x ∈ (Node.call callee args).reads) :
    callee.calleeName = none ∧ x ∈ callee.reads ∨ x ∈ readsAll args := by
  rw [reads] at h
  cases hc : callee.calleeName with
  | none =>
    simp only [hc, mem_append] at h
    exact h.imp_left fun h => ⟨rfl, h⟩
  | some f =>
    simp only [hc] at h
    exact .inr h

lemma mem_reads_call_of_args (h : x ∈ readsAll args) : x ∈ (Node.call callee args).reads := by
  rw [reads]
  cases callee.calleeName with
  | none => exact mem_append_right _ h
  | some f => exact h

lemma mem_reads_itemClosure {body : Node} :
    x ∈ (itemClosure body).reads ↔ x ∈ body.reads ∧ x ≠ "item" := by
  simp [itemClosure, reads]

/-! ## Row scope -/

mutual

theorem mem_reads_rewriteRowColumns : (n : Node) → x ∈ (rewriteRowColumns n).reads →
    x ∈ n.reads ∨ x = "item"
  | .ident name, h => by
    rw [rewriteRowColumns] at h
    split at h
    · exact .inl h
    · simp only [mem_reads_fn, mem_cons, not_mem_nil, or_false, exists_eq_or_imp,
        exists_eq_left, reads] at h
      exact .inr h
  | .call callee args, h => by
    rw [rewriteRowColumns] at h
    rcases mem_reads_call h with ⟨hc, h⟩ | h
    · left
      rw [reads, hc]
      exact mem_append_left _ h
    · exact (mem_readsAll_rewriteRowColumns args h).imp_left mem_reads_call_of_args
  | .builtin _ args, h => mem_readsAll_rewriteRowColumns args h
  | .conditional c a b, h => by
    simp only [rewriteRowColumns, reads, mem_append] at h ⊢
    rcases h with (h | h) | h
    · exact (mem_reads_rewriteRowColumns c h).imp_left fun h => .inl (.inl h)
    · exact (mem_reads_rewriteRowColumns a h).imp_left fun h => .inl (.inr h)
    · exact (mem_reads_rewriteRowColumns b h).imp_left .inr
  | .member n q _, h => by
    simp only [rewriteRowColumns, reads, mem_append] at h ⊢
    rcases h with h | h
    · exact (mem_reads_rewriteRowColumns n h).imp_left .inl
    · exact .inl (.inr h)
  | .array ns, h => mem_readsAll_rewriteRowColumns ns h
  | .int _, h | .float _, h | .string _, h | .bool _, h | .nil, h | .const _, h | .pointer, h
  | .unary _ _, h | .binary _ _ _, h | .chain _, h | .slice _ _, h | .predicate _, h
  | .letIn _ _ _, h | .map _ _, h => .inl h

theorem mem_readsAll_rewriteRowColumns : (ns : List Node) → x ∈ readsAll (rewriteRowColumnsAll ns) →
    x ∈ readsAll ns ∨ x = "item"
  | [], h => .inl h
  | n :: ns, h => by
    simp only [rewriteRowColumnsAll, readsAll, mem_append] at h ⊢
    rcases h with h | h
    · exact (mem_reads_rewriteRowColumns n h).imp_left .inl
    · exact (mem_readsAll_rewriteRowColumns ns h).imp_left .inr

end

variable {n : Node}

/-- A closure over rows reads what its expression reads. -/
lemma mem_reads_rowClosure (h : x ∈ (rewriteRowColumns n).reads) (hx : x ≠ "item") :
    x ∈ n.reads := (mem_reads_rewriteRowColumns n h).resolve_right hx

variable {recv : Node}

lemma mem_reads_lowerFilter {pred : Node} {negate : Bool}
    (h : x ∈ (lowerFilter recv pred negate).reads) : x ∈ recv.reads ∨ x ∈ pred.reads := by
  have hbody : ∀ {n : Node}, x ∈ (if negate then fn "__not" [n] else n).reads → x ∈ n.reads := by
    intro n h
    cases negate
    · exact h
    · simpa [mem_reads_fn] using h
  simp only [lowerFilter, mem_reads_fn, mem_cons, not_mem_nil, or_false,
    exists_eq_or_imp, exists_eq_left, reads, mem_readsAll, mem_reads_itemClosure] at h
  rcases h with h | h | ⟨h, hx⟩
  · exact .inl h
  · exact .inl h
  · exact .inr (mem_reads_rowClosure (hbody h) hx)

lemma mem_reads_lowerWithColumn {name expr : Node}
    (h : x ∈ (lowerWithColumn recv name expr).reads) :
    x ∈ recv.reads ∨ x ∈ name.reads ∨ x ∈ expr.reads := by
  simp only [lowerWithColumn, mem_reads_fn, mem_cons, not_mem_nil, or_false,
    exists_eq_or_imp, exists_eq_left, reads, mem_readsAll, mem_reads_itemClosure] at h
  rcases h with h | h | h | ⟨h, hx⟩
  · exact .inl h
  · exact .inr (.inl h)
  · exact .inl h
  · exact .inr (.inr (mem_reads_rowClosure h hx))

lemma mem_readsAll_aggPairs : (args : List Node) → x ∈ readsAll (aggPairs args) →
    x ∈ readsAll args ∨ x = "item"
  | [], h => .inl h
  | [_], h => by simp [aggPairs, readsAll] at h
  | name :: expr :: rest, h => by
    simp only [aggPairs, readsAll, mem_append] at h ⊢
    rcases h with h | h | h
    · exact .inl (.inl h)
    · exact (mem_reads_rewriteRowColumns expr h).imp_left fun h => .inr (.inl h)
    · exact (mem_readsAll_aggPairs rest h).imp_left fun h => .inr (.inr h)

variable {keys : List Node}

lemma mem_reads_lowerGroupAgg {aggArgs : List Node}
    (h : x ∈ (lowerGroupAgg recv keys aggArgs).reads) :
    x ∈ recv.reads ∨ x ∈ readsAll keys ∨ x ∈ readsAll aggArgs := by
  simp only [lowerGroupAgg, mem_reads_fn, mem_cons, not_mem_nil, or_false,
    exists_eq_or_imp, exists_eq_left, reads, mem_readsAll, mem_reads_itemClosure,
    mem_append, mem_flatMap] at h
  rcases h with (h | ⟨n, hn, h⟩) | ⟨⟨n, hn, h⟩, hx⟩
  · exact .inl h
  · exact .inr (.inl (mem_readsAll.2 ⟨n, hn, h⟩))
  · rcases hn with ⟨k, hk, rfl | rfl⟩ | hn
    · exact .inr (.inl (mem_readsAll.2 ⟨_, hk, h⟩))
    · simp only [mem_reads_fn, mem_cons, not_mem_nil, or_false, exists_eq_or_imp,
        exists_eq_left, reads, hx, false_or] at h
      exact .inr (.inl (mem_readsAll.2 ⟨k, hk, h⟩))
    · exact .inr
        (.inr ((mem_readsAll_aggPairs aggArgs (mem_readsAll.2 ⟨n, hn, h⟩)).resolve_right hx))

/-! ## Members, calls and dictionaries -/

lemma mem_reads_patchMember {property : Node} {method : Bool}
    (h : x ∈ (patchMember n property method).reads) : x ∈ n.reads ∨ x ∈ property.reads := by
  rw [patchMember] at h
  split at h
  · simpa [reads] using h
  · split at h
    · exact .inl (by simpa [mem_reads_fn, reads] using h)
    · split at h
      · exact mem_reads_lowerFilter h
      · simpa [mem_reads_fn] using h

variable {inner : Node}

lemma mem_reads_groupByCall
    (hg : groupByCall recv = some (inner, keys)) (h : x ∈ inner.reads ∨ x ∈ readsAll keys) :
    x ∈ recv.reads := by
  unfold groupByCall at hg
  split at hg
  case _ recv' property method keys' =>
    split at hg
    · obtain ⟨rfl, rfl⟩ := Prod.mk.inj (Option.some.inj hg)
      simp only [reads, calleeName, mem_append]
      exact h.imp_left .inl
    · cases hg
  case _ => cases hg

lemma mem_reads_patchMethod {name : String}
    (hn : patchMethod recv name args = some n) (h : x ∈ n.reads) :
    x ∈ recv.reads ∨ x ∈ readsAll args := by
  unfold patchMethod at hn
  split at hn
  case _ backing _ =>
    cases hn
    simpa only [mem_reads_fn, mem_cons, exists_eq_or_imp, ← mem_readsAll] using h
  case _ =>
    split at hn
    case _ pred =>
      cases hn
      exact (mem_reads_lowerFilter h).imp_right fun h => by simpa [readsAll] using h
    case _ pred =>
      cases hn
      exact (mem_reads_lowerFilter h).imp_right fun h => by simpa [readsAll] using h
    case _ column expr =>
      cases hn
      exact (mem_reads_lowerWithColumn h).imp_right fun h => by simpa [readsAll] using h
    case _ aggArgs =>
      obtain ⟨⟨inner, keys⟩, hg, rfl⟩ := Option.map_eq_some_iff.1 hn
      rcases mem_reads_lowerGroupAgg h with h | h | h
      · exact .inl (mem_reads_groupByCall hg (.inl h))
      · exact .inl (mem_reads_groupByCall hg (.inr h))
      · exact .inr h
    case _ => cases hn

lemma mem_reads_patchCall (h : x ∈ (patchCall callee args).reads) :
    callee.calleeName = none ∧ x ∈ callee.reads ∨ x ∈ readsAll args := by
  unfold patchCall at h
  split at h
  case _ recv property method =>
    split at h
    case _ name _ =>
      cases hm : patchMethod recv name args with
      | none =>
        rw [hm] at h
        exact mem_reads_call h
      | some n =>
        rw [hm] at h
        refine (mem_reads_patchMethod hm h).imp_left fun h => ⟨rfl, ?_⟩
        exact mem_append_left _ h
    case _ => exact mem_reads_call h
  case _ => exact mem_reads_call h

variable {values : List Node}

/-- The lets of a dictionary literal bind the keys they are named after. -/
lemma mem_reads_foldr_letIn {entries : List (String × Node)} (h : x ∈ (entries.foldr (fun e inner =>
      if validIdentifier e.1 then .letIn e.1 e.2 inner else inner) inner).reads) :
    (∃ e ∈ entries, x ∈ e.2.reads) ∨
      x ∈ inner.reads ∧ ∀ e ∈ entries, validIdentifier e.1 → x ≠ e.1 := by
  induction entries with
  | nil => exact .inr ⟨h, by simp⟩
  | cons e entries ih =>
    rw [foldr_cons] at h
    by_cases hv : validIdentifier e.1 = true
    · rw [if_pos hv, reads, mem_append] at h
      rcases h with h | h
      · exact .inl ⟨e, by simp, h⟩
      · obtain ⟨h, hne⟩ := mem_filter.1 h
        rcases ih h with ⟨e', he', h⟩ | ⟨h, hall⟩
        · exact .inl ⟨e', mem_cons_of_mem _ he', h⟩
        · refine .inr ⟨h, forall_mem_cons.2 ⟨fun _ => by simpa using hne, hall⟩⟩
    · rw [if_neg hv] at h
      rcases ih h with ⟨e', he', h⟩ | ⟨h, hall⟩
      · exact .inl ⟨e', mem_cons_of_mem _ he', h⟩
      · exact .inr ⟨h, forall_mem_cons.2 ⟨fun h => absurd h hv, hall⟩⟩

lemma mem_reads_lowerMap {keys : List (Option String)}
    (h : x ∈ (lowerMap keys values).reads) : x ∈ readsAll values := by
  have hvalue : ∀ e ∈ mapEntries keys values, x ∈ e.2.reads → x ∈ readsAll values :=
    fun e he hx => by
    obtain ⟨⟨k, v⟩, hp, he⟩ := mem_filterMap.1 he
    obtain ⟨k', -, rfl⟩ := Option.map_eq_some_iff.1 he
    exact mem_readsAll.2 ⟨v, (of_mem_zip hp).2, hx⟩
  rcases mem_reads_foldr_letIn h with ⟨e, he, hx⟩ | ⟨h, hall⟩
  · exact hvalue e he hx
  · obtain ⟨n, hn, hx⟩ := mem_reads_fn.1 h
    obtain ⟨e, he, hn⟩ := mem_flatMap.1 hn
    simp only [mem_cons, not_mem_nil, or_false] at hn
    rcases hn with rfl | rfl
    · simp [reads] at hx
    · split at hx
      case isTrue hv => exact absurd (mem_singleton.1 hx) (hall e he hv)
      case isFalse => exact hvalue e he hx

/-! ## The walk -/

variable {k : Nat}

lemma calleeName_patch_eq_none (h : (n.patch k).1.calleeName = none) : n.calleeName = none := by
  cases n with
  | ident name => simp [patch, calleeName] at h
  | _ => rfl

lemma mem_reads_patchUnary {op : UnaryOp} (h : x ∈ (patchUnary op n).reads) : x ∈ n.reads := by
  cases op with
  | plus => exact h
  | neg | not | bang => simpa [patchUnary, mem_reads_fn] using h

lemma mem_reads_patchBinary {op : BinaryOp} {l r : Node}
    (h : x ∈ (patchBinary op l r k).1.reads) : x ∈ l.reads ∨ x ∈ r.reads := by
  unfold patchBinary at h
  split at h
  case _ | _ | _ | _ => exact ((mem_reads_lowerLogical _ _ _).1 h).imp_right And.left
  case _ => simpa [mem_reads_fn] using h
  case _ =>
    split at h
    · simpa [mem_reads_fn] using h
    · simpa [reads] using h

mutual

/-- The patched tree looks up only names the parsed tree has. -/
theorem mem_reads_patch : (n : Node) → (k : Nat) → x ∈ (n.patch k).1.reads → x ∈ n.reads
  | .ident _, _, h => h
  | .int _, _, h | .float _, _, h | .string _, _, h | .bool _, _, h | .nil, _, h | .const _, _, h
  | .pointer, _, h => h
  | .unary _ n, k, h => mem_reads_patch n k (mem_reads_patchUnary h)
  | .binary _ l r, k, h => by
    rw [reads, mem_append]
    exact (mem_reads_patchBinary h).imp (mem_reads_patch l k) (mem_reads_patch r _)
  | .member n q _, k, h => by
    rw [reads, mem_append]
    exact (mem_reads_patchMember h).imp (mem_reads_patch n k) (mem_reads_patch q _)
  | .chain n, k, h | .predicate n, k, h => mem_reads_patch n k h
  | .slice n bs, k, h => by
    simp only [patch, reads, mem_append] at h ⊢
    exact h.imp (mem_reads_patch n k) (mem_readsAll_patchAll bs _)
  | .call callee args, k, h => by
    rcases mem_reads_patchCall h with ⟨hc, h⟩ | h
    · rw [reads, calleeName_patch_eq_none hc]
      exact mem_append_left _ (mem_reads_patch callee k h)
    · exact mem_reads_call_of_args (mem_readsAll_patchAll args _ h)
  | .builtin _ args, k, h => mem_readsAll_patchAll args k h
  | .conditional c a b, k, h => by
    simp only [patch, reads, mem_reads_fn, mem_singleton, exists_eq_left, mem_append] at h ⊢
    rcases h with (h | h) | h
    · exact .inl (.inl (mem_reads_patch c k h))
    · exact .inl (.inr (mem_reads_patch a _ h))
    · exact .inr (mem_reads_patch b _ h)
  | .letIn name v e, k, h => by
    simp only [patch, reads, mem_append, mem_filter] at h ⊢
    exact h.imp (mem_reads_patch v k) (And.imp_left (mem_reads_patch e _))
  | .array ns, k, h => by
    simp only [patch, mem_reads_fn, ← mem_readsAll] at h
    exact mem_readsAll_patchAll ns k h
  | .map keys values, k, h => mem_readsAll_patchAll values k (mem_reads_lowerMap h)

theorem mem_readsAll_patchAll : (ns : List Node) → (k : Nat) → x ∈ readsAll (patchAll ns k).1 →
    x ∈ readsAll ns
  | [], _, h => h
  | n :: ns, k, h => by
    simp only [patchAll, readsAll, mem_append] at h ⊢
    exact h.imp (mem_reads_patch n k) (mem_readsAll_patchAll ns _)

end

mutual

/-- The counter never goes back. -/
theorem le_patch_counter : (n : Node) → (k : Nat) → k ≤ (n.patch k).2
  | .ident _, _ | .int _, _ | .float _, _ | .string _, _ | .bool _, _ | .nil, _ | .const _, _
  | .pointer, _ => Nat.le_refl _
  | .unary _ n, k | .chain n, k | .predicate n, k => le_patch_counter n k
  | .binary op l r, k => by
    have hl := le_patch_counter l k
    have hr := le_patch_counter r (l.patch k).2
    have hop : ∀ a b j, j ≤ (patchBinary op a b j).2 := by
      intro a b j
      unfold patchBinary
      split <;> try exact Nat.le_succ j
      · exact Nat.le_refl j
      · split <;> exact Nat.le_refl j
    exact (hl.trans hr).trans (hop _ _ _)
  | .member n q _, k => (le_patch_counter n k).trans (le_patch_counter q _)
  | .slice n bs, k => (le_patch_counter n k).trans (le_patchAll_counter bs _)
  | .call c args, k => (le_patch_counter c k).trans (le_patchAll_counter args _)
  | .builtin _ args, k => le_patchAll_counter args k
  | .conditional c a b, k =>
    ((le_patch_counter c k).trans (le_patch_counter a _)).trans (le_patch_counter b _)
  | .letIn _ v e, k => (le_patch_counter v k).trans (le_patch_counter e _)
  | .array ns, k => le_patchAll_counter ns k
  | .map _ values, k => le_patchAll_counter values k

theorem le_patchAll_counter : (ns : List Node) → (k : Nat) → k ≤ (patchAll ns k).2
  | [], _ => Nat.le_refl _
  | n :: ns, k => (le_patch_counter n k).trans (le_patchAll_counter ns _)

end

end Node

end Blkit
