import Blkit.Expr.Eval
import Blkit.Expr.Patch

/-!
# List indexing

A bracket `l[e]` is a component access, a filter or an index, and which one is
decided from the patched tree of `e`.  A bare name counts as a component name, so
an index held in a variable is never used as one; a conditional, and whatever
mentions `item`, filters.  An index that is recognised as one works as long as its
low 64 bits do not name another position.
-/

namespace Blkit

open Fallible Node

/-- The element at a position counted from 1, or from the end when it is negative; null
when there is no such position. -/
def elementAt (xs : List BlValue) (i : Int) : BlValue :=
  if 1 ≤ i ∧ i ≤ xs.length then (xs[(i - 1).toNat]?).getD .null
  else if -xs.length ≤ i ∧ i ≤ -1 then (xs[(xs.length + i).toNat]?).getD .null
  else .null

/-- `indexFn` on the position it is left with. -/
def indexAt (xs : List BlValue) (i : Int) : BlValue :=
  ((position xs.length i).bind (xs[·]?)).getD .null

lemma indexAt_eq (xs : List BlValue) (i : Int) : indexAt xs i = elementAt xs i := by
  rw [indexAt, position, elementAt]
  by_cases hneg : i < 0
  · simp only [hneg, if_true]
    by_cases hin : -xs.length ≤ i
    · rw [if_neg (by omega), if_neg (by omega), if_pos (by omega)]
      simp only [Option.bind_some]
      congr 3
      omega
    · rw [if_pos (by omega), if_neg (by omega), if_neg (by omega)]
      rfl
  · simp only [hneg, if_false]
    by_cases hin : 1 ≤ i ∧ i ≤ xs.length
    · rw [if_neg (by omega), if_pos hin]
      rfl
    · rw [if_pos (by omega), if_neg hin, if_neg (by omega)]
      rfl

/-! ## When the low bits are enough -/

/-- The low 64 bits of `i` are `i` itself, or a position no list has. -/
def IndexRange (i : Int) : Prop :=
  i.bmod (2 ^ 64) = i ∨ i.bmod (2 ^ 64) = 0 ∨ i.bmod (2 ^ 64) = -2 ^ 63

instance (i : Int) : Decidable (IndexRange i) := inferInstanceAs (Decidable (_ ∨ _ ∨ _))

/-- Out of the range of an `int64` there are no elements. -/
lemma elementAt_of_bmod_ne {xs : List BlValue} (hxs : xs.length < 2 ^ 63) {i : Int}
    (hi : i.bmod (2 ^ 64) ≠ i) : elementAt xs i = .null := by
  rw [Ne, bmod_eq_self_iff] at hi
  rw [elementAt, if_neg (by omega), if_neg (by omega)]

lemma indexRange_iff (i : Int) : (∀ xs : List BlValue, xs.length < 2 ^ 63 →
      elementAt xs (i.bmod (2 ^ 64)) = elementAt xs i) ↔ IndexRange i := by
  obtain ⟨hlo, hhi⟩ := bmod_bounds i
  constructor
  · intro h
    by_contra hr
    simp only [IndexRange, not_or] at hr
    obtain ⟨hne, h0, hmin⟩ := hr
    -- a list just long enough to have an element where the low bits point
    let xs : List BlValue := List.replicate (i.bmod (2 ^ 64)).natAbs (.boolean true)
    have hlen : xs.length = (i.bmod (2 ^ 64)).natAbs := List.length_replicate
    have hxs : xs.length < 2 ^ 63 := by omega
    have hget : ∀ j : Nat, j < xs.length → (xs[j]?).getD .null = .boolean true := by
      intro j hj
      rw [List.getElem?_replicate_of_lt (by omega)]
      rfl
    have hnull := h xs hxs
    rw [elementAt_of_bmod_ne hxs hne, elementAt] at hnull
    split at hnull
    · rw [hget _ (by omega)] at hnull
      cases hnull
    · split at hnull
      · rw [hget _ (by omega)] at hnull
        cases hnull
      · omega
  · intro hr xs hxs
    by_cases hne : i.bmod (2 ^ 64) = i
    · rw [hne]
    · rw [elementAt_of_bmod_ne hxs hne]
      rcases hr.resolve_left hne with h0 | hmin
      · rw [h0, elementAt, if_neg (by omega), if_neg (by omega)]
      · rw [hmin, elementAt, if_neg (by omega), if_neg (by omega)]

/-! ## Brackets on lists -/

variable {lib : Lib} {s : Bindings} {el : Option VmValue}

/-- The bracket is compiled to an index: its patched property is no component name and
no filter. -/
def CompilesToIndex (property : Node) : Prop :=
  property.stringProperty = none ∧ isFilterPredicate property = false

instance (property : Node) : Decidable (CompilesToIndex property) :=
  inferInstanceAs (Decidable (_ ∧ _))

lemma eval_index {n property : Node} {xs : List BlValue} {i : Int}
    (hn : eval lib n s el = .ok (.bl (.list xs)))
    (hp : eval lib property s el = .ok (.bl (.number i))) :
    eval lib (.fn "__index" [n, property]) s el = .ok (.bl (indexAt xs (i.bmod (2 ^ 64)))) := by
  have hcall : callFn lib "__index" [.bl (.list xs), .bl (.number i)] =
      .ok (.bl (indexAt xs (intPart i))) := rfl
  rw [eval_fn_two, hn, ok_bind, hp, ok_bind, hcall]
  simp [intPart]

/-- A bracket that is no index answers the empty list with a list. -/
lemma eval_patchMember_nil {n property : Node} (hn : eval lib n s el = .ok (.bl (.list [])))
    (hp : ¬ CompilesToIndex property) :
    eval lib (patchMember n property false) s el = .ok (.bl (.list [])) := by
  rw [patchMember, if_neg (by decide)]
  cases hs : property.stringProperty with
  | some name =>
    have hcall : callFn lib "componentAccess" [.bl (.list []), .bl (.string name)] =
        .ok (.bl (.list [])) := rfl
    rw [eval_fn_two, hn, ok_bind, eval, ok_bind, hcall]
  | none =>
    have hf : isFilterPredicate property = true := by
      by_contra hf
      exact hp ⟨hs, by simpa using hf⟩
    have hitems : eval lib (.fn "__items" [n]) s el = .ok (.slice []) := by
      rw [eval_fn_one, hn]
      rfl
    rw [if_pos hf, lowerFilter, eval_fn_two, hn, ok_bind, itemClosure, eval_builtin_closure, hitems]
    rfl

/-- `l[e]` is the element at the position `e` evaluates to, for every list `l`; `k` is the
counter when the walk reaches `e`. -/
def IndexesLists (lib : Lib) (s : Bindings) (el : Option VmValue) (e : Node) (k : Nat) (i : Int) :
    Prop :=
  ∀ (l : Node) (j : Nat) (xs : List BlValue), xs.length < 2 ^ 63 → (l.patch j).2 = k →
    eval lib (l.patch j).1 s el = .ok (.bl (.list xs)) →
      eval lib ((Node.member l e false).patch j).1 s el = .ok (.bl (elementAt xs i))

/-- An index that evaluates to an integer is used as one exactly when it is compiled to
one and its low 64 bits name its position. -/
theorem indexesLists_iff {e : Node} {k : Nat} {i : Int}
    (he : eval lib (e.patch k).1 s el = .ok (.bl (.number i))) :
    IndexesLists lib s el e k i ↔ CompilesToIndex (e.patch k).1 ∧ IndexRange i := by
  have hpatch : ∀ (l : Node) (j : Nat), (l.patch j).2 = k → ((Node.member l e false).patch j).1 =
      patchMember (l.patch j).1 (e.patch k).1 false := by
    rintro l j rfl
    rfl
  have hindex (hc : CompilesToIndex (e.patch k).1) (n : Node) :
      patchMember n (e.patch k).1 false = .fn "__index" [n, (e.patch k).1] := by
    rw [patchMember, if_neg (by decide), hc.1]
    rw [if_neg (by simp [hc.2])]
  constructor
  · intro h
    have hc : CompilesToIndex (e.patch k).1 := by
      by_contra hc
      have hnil : eval lib ((Node.array []).patch k).1 s el = .ok (.bl (.list [])) := rfl
      have hres := h (.array []) k [] (by decide) rfl hnil
      rw [hpatch _ _ rfl, eval_patchMember_nil hnil hc] at hres
      simp [elementAt] at hres
    refine ⟨hc, (indexRange_iff i).1 fun xs hxs => ?_⟩
    have hconst : eval lib ((Node.const (.list xs)).patch k).1 s el = .ok (.bl (.list xs)) := rfl
    have hres := h (.const (.list xs)) k xs hxs rfl hconst
    rw [hpatch _ _ rfl, hindex hc, eval_index hconst he, indexAt_eq] at hres
    exact VmValue.bl.inj (Except.ok.inj hres)
  · rintro ⟨hc, hr⟩ l j xs hxs hj hl
    rw [hpatch l j hj, hindex hc, eval_index hl he, indexAt_eq, (indexRange_iff i).2 hr xs hxs]

/-- The scope in which `i` is 1. -/
def indexScope : Bindings := fun name => if name = "i" then some (.bl (.number 1)) else none

/-- `[10, 20][i]` with `i` bound to 1 looks for a component `i` of the elements. -/
theorem variable_index_lost :
    eval .empty ((Node.member (.array [.int 10, .int 20]) (.ident "i") false).patched)
      indexScope none =
      .ok (.bl (.list [.null, .null])) ∧
    eval .empty (Node.ident "i").patched indexScope none = .ok (.bl (.number 1)) ∧
    elementAt [.number 10, .number 20] 1 = .number 10 := by
  refine ⟨?_, ?_, ?_⟩
  all_goals rfl

/-- `l[-1]`, with the index written out, is the last element. -/
theorem indexesLists_minus_one :
    IndexesLists .empty indexScope none (.const (.number (-1))) 0 (-1) := by
  have he : eval .empty ((Node.const (.number (-1))).patch 0).1 indexScope none =
      .ok (.bl (.number ((-1 : Int) : ℚ))) := by
    show Except.ok (VmValue.bl (.number (-1))) = _
    norm_num
  exact (indexesLists_iff he).2 ⟨by decide, by decide⟩

end Blkit
