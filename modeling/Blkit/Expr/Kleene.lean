import Mathlib.Data.List.Nodup
import Blkit.Expr.Effect
import Blkit.Expr.Scope

/-!
# Three-valued connectives

`and`, `or` and `not` over operands that are true, false or null.  The reference
computes the strong Kleene value, from left to right, and leaves a right operand
alone when the left one decides.  The lowered program is the same computation, in
every monad: whatever the operands do, they do it the same number of times and in
the same order.

The operands are arbitrary trees, which may contain lowered connectives of their
own.  Their code is run in a scope that also holds the names of the connectives
around them; it does not look at those (`Node.mem_reads_patch`).
-/

namespace Blkit

open Node List Function

/-! ## Strong Kleene logic -/

/-- Truth values, with null for an unknown one. -/
inductive Kleene where
  | true | false | null
deriving DecidableEq, Repr

namespace Kleene

/-- False decides; otherwise null is contagious. -/
def and : Kleene → Kleene → Kleene
  | .false, _ | _, .false => .false
  | .true, .true => .true
  | _, _ => .null

/-- True decides; otherwise null is contagious. -/
def or : Kleene → Kleene → Kleene
  | .true, _ | _, .true => .true
  | .false, .false => .false
  | _, _ => .null

/-- Null stays null. -/
def not : Kleene → Kleene
  | .true => .false
  | .false => .true
  | .null => .null

/-- The value of the language. -/
def value : Kleene → BlValue
  | .true => .boolean Bool.true
  | .false => .boolean Bool.false
  | .null => .null

end Kleene

/-! ## Formulas over operands -/

/-- The two spellings of a connective. -/
inductive Spelling where
  | word | symbol
deriving DecidableEq, Repr

/-- A tree of connectives over operands. -/
inductive Formula where
  | operand (n : Node)
  | and (sp : Spelling) (l r : Formula)
  | or (sp : Spelling) (l r : Formula)
  | not (sp : Spelling) (f : Formula)

namespace Formula

/-- The parsed tree. -/
def tree : Formula → Node
  | .operand n => n
  | .and .word l r => .binary .and l.tree r.tree
  | .and .symbol l r => .binary .ampAmp l.tree r.tree
  | .or .word l r => .binary .or l.tree r.tree
  | .or .symbol l r => .binary .pipePipe l.tree r.tree
  | .not .word f => .unary .not f.tree
  | .not .symbol f => .unary .bang f.tree

/-- The operands. -/
def operands : Formula → List Node
  | .operand n => [n]
  | .and _ l r | .or _ l r => l.operands ++ r.operands
  | .not _ f => f.operands

/-- The formula over the operands' code, each patched where the walk reaches it, and
the counter after the walk. -/
def compiled : Formula → Nat → Formula × Nat
  | .operand n, k => (.operand (n.patch k).1, (n.patch k).2)
  | .and sp l r, k =>
    let l := l.compiled k
    let r := r.compiled l.2
    (.and sp l.1 r.1, r.2 + 1)
  | .or sp l r, k =>
    let l := l.compiled k
    let r := r.compiled l.2
    (.or sp l.1 r.1, r.2 + 1)
  | .not sp f, k =>
    let f := f.compiled k
    (.not sp f.1, f.2)

variable {m : Type → Type} [Monad m]

/-- The reference: from left to right, a right operand only when the left one does not
decide. -/
def denote (sem : Node → m Kleene) : Formula → m Kleene
  | .operand n => sem n
  | .and _ l r => do
    let a ← l.denote sem
    if a = .false then pure .false
    else do
      let b ← r.denote sem
      pure (a.and b)
  | .or _ l r => do
    let a ← l.denote sem
    if a = .true then pure .true
    else do
      let b ← r.denote sem
      pure (a.or b)
  | .not _ f => do
    let a ← f.denote sem
    pure a.not

end Formula

/-- A name as a source text may have it. -/
def SourceName (x : String) : Prop := x.toList.take 2 ≠ ['_', '_']

lemma SourceName.ne_scName {x : String} (h : SourceName x) (k : Nat) : x ≠ scName k := by
  rintro rfl
  exact h (take_scName k)

/-! ## The lowering of one connective -/

section Lowering

variable {m : Type → Type} [Monad m] [MonadExcept String m] {lib : EffLib m}

lemma callFnM_of_lookup {f : String} {g : List VmValue → Except String VmValue}
    (h : (intrinsics lib.base).lookup f = some g) {vs : List VmValue} {v : VmValue}
    (hv : g vs = .ok v) : callFnM lib f vs = pure v := by
  rw [callFnM, h]
  show ofExcept (g vs) = _
  rw [hv]
  rfl

variable [LawfulMonad m]

/-- The lowering of a connective, with what its guard and its combination compute. -/
lemma evalM_lowerLogical {guardFn combineFn : String} {stop : BlValue → Bool}
    {combine : BlValue → BlValue → BlValue}
    (hguard : ∀ x, callFnM lib guardFn [x] = pure (.bool (stop x.asBl)))
    (hcombine : ∀ x y, callFnM lib combineFn [x, y] = pure (.bl (combine x.asBl y.asBl)))
    (l r : Node) (k : Nat) (s : Bindings) (p : Option VmValue) :
    evalM lib (lowerLogical l r guardFn combineFn k) s p = (do
      let a ← evalM lib l s p
      if stop a.asBl then pure (.bl a.asBl)
      else do
        let b ← evalM lib r (update s (scName k) (some a)) p
        pure (.bl (combine a.asBl b.asBl))) := by
  have hval (x : VmValue) : callFnM lib "__val" [x] = pure (.bl x.asBl) := callFnM_of_lookup rfl rfl
  rw [lowerLogical, ← scName, evalM]
  refine bind_congr fun a => ?_
  simp only [Node.fn, evalM, calleeName, evalAllM, update_self, pure_bind, bind_assoc,
    hguard, hval, hcombine]
  cases stop a.asBl <;> rfl

end Lowering

namespace Formula

/-- The walk counts as `compiled` does. -/
lemma patch_tree_counter (f : Formula) (k : Nat) : (f.tree.patch k).2 = (f.compiled k).2 := by
  induction f generalizing k with
  | operand n => rfl
  | and sp l r ihl ihr | or sp l r ihl ihr =>
    cases sp <;> simp only [tree, patch, patchBinary, compiled, ihl, ihr]
  | not sp f ih => cases sp <;> simp only [tree, patch, compiled, ih]

/-- The code of the operands looks up no more than the operands. -/
lemma mem_reads_compiled {f : Formula} {k : Nat} {n : Node} (hn : n ∈ (f.compiled k).1.operands)
    {x : String} (hx : x ∈ n.reads) : ∃ n' ∈ f.operands, x ∈ n'.reads := by
  induction f generalizing k with
  | operand n' =>
    rw [compiled, operands, mem_singleton] at hn
    subst hn
    exact ⟨n', mem_singleton_self n', mem_reads_patch n' k hx⟩
  | and sp l r ihl ihr | or sp l r ihl ihr =>
    simp only [compiled, operands, mem_append] at hn ⊢
    rcases hn with hn | hn
    · obtain ⟨n', hn', hx⟩ := ihl hn
      exact ⟨n', .inl hn', hx⟩
    · obtain ⟨n', hn', hx⟩ := ihr hn
      exact ⟨n', .inr hn', hx⟩
  | not sp f ih => exact ih hn

section Denotation

variable {m : Type → Type} [Monad m] [LawfulMonad m] [MonadExcept String m] {lib : EffLib m}

/-- What an operand's or a formula's code computes, as a value of the language. -/
def result (c : m Kleene) : m VmValue := (fun a => .bl a.value) <$> c

/-- A connective whose guard tests for `top`, on formulas. -/
lemma evalM_connective {guardFn combineFn : String} {stop : BlValue → Bool}
    {combine : BlValue → BlValue → BlValue} {top : Kleene} {op : Kleene → Kleene → Kleene}
    (hguard : ∀ x, callFnM lib guardFn [x] = pure (.bool (stop x.asBl)))
    (hcombine : ∀ x y, callFnM lib combineFn [x, y] = pure (.bl (combine x.asBl y.asBl)))
    (hstop : ∀ a : Kleene, stop a.value ↔ a = top)
    (hop : ∀ a b : Kleene, combine a.value b.value = (op a b).value) {l r : Node} {j : Nat}
    {s : Bindings} {p : Option VmValue} {L R : m Kleene} (hl : evalM lib l s p = result L)
    (hr : ∀ a, evalM lib r (update s (scName j) (some a)) p = result R) :
    evalM lib (lowerLogical l r guardFn combineFn j) s p = result (do
      let a ← L
      if a = top then pure top
      else do
        let b ← R
        pure (op a b)) := by
  rw [evalM_lowerLogical hguard hcombine, hl]
  simp only [hr, result, map_eq_pure_bind, bind_assoc, pure_bind, VmValue.asBl_bl, hstop, hop]
  refine bind_congr fun a => ?_
  by_cases ha : a = top <;> simp [ha]

lemma evalM_not (sp : Spelling) {f : Formula} {k : Nat} {s : Bindings} {p : Option VmValue}
    {L : m Kleene} (hf : evalM lib (f.tree.patch k).1 s p = result L) :
    evalM lib ((Formula.not sp f).tree.patch k).1 s p = result (do
      let a ← L
      pure a.not) := by
  have hcode : ((Formula.not sp f).tree.patch k).1 = Node.fn "__not" [(f.tree.patch k).1] := by
    cases sp <;> simp only [tree, patch, patchUnary]
  have hcall (a : Kleene) : callFnM lib "__not" [.bl a.value] = pure (.bl a.not.value) :=
    callFnM_of_lookup rfl (by cases a <;> rfl)
  simp only [hcode, Node.fn, evalM, calleeName, evalAllM, hf, result, map_eq_pure_bind,
    bind_assoc, pure_bind, hcall]

/-- The code of a formula, in any scope that agrees on the names of the source. -/
lemma evalM_tree (f : Formula) {sem : Node → m Kleene} {s : Bindings} {p : Option VmValue} (k : Nat)
    (hnames : ∀ n ∈ f.operands, ∀ x ∈ n.reads, SourceName x)
    (hsem : ∀ n ∈ (f.compiled k).1.operands, evalM lib n s p = result (sem n)) {t : Bindings}
    (ht : ∀ x, SourceName x → t x = s x) :
    evalM lib (f.tree.patch k).1 t p = result ((f.compiled k).1.denote sem) := by
  induction f generalizing k t with
  | operand n =>
    have hn : (n.patch k).1 ∈ ((Formula.operand n).compiled k).1.operands := mem_singleton_self _
    refine Eq.trans (evalM_congr _ fun x hx => ht x ?_) (hsem _ hn)
    exact hnames n (mem_singleton_self n) x (mem_reads_patch n k hx)
  | and sp l r ihl ihr | or sp l r ihl ihr =>
    simp only [operands, compiled, mem_append] at hnames hsem
    have hl := ihl k (fun n h => hnames n (.inl h)) (fun n h => hsem n (.inl h)) ht
    have hr (a : VmValue) (j : Nat) := ihr (l.compiled k).2 (fun n h => hnames n (.inr h))
      (fun n h => hsem n (.inr h)) (t := update t (scName j) (some a)) fun x hx => by
        rw [update_of_ne (hx.ne_scName _), ht x hx]
    cases sp
    all_goals
      simp only [tree, patch, patchBinary, patch_tree_counter]
      exact evalM_connective (fun _ => callFnM_of_lookup rfl rfl)
        (fun _ _ => callFnM_of_lookup rfl rfl)
        (fun a => by cases a <;> simp [Kleene.value, isFalse, truthy])
        (fun a b => by cases a <;> cases b <;> rfl) hl fun a => hr a _
  | not sp f ih => exact evalM_not sp (ih k hnames hsem ht)

end Denotation

/-! ## Values and names -/

/-- The strong Kleene value, given the values of the operands. -/
def value (v : Node → Kleene) : Formula → Kleene
  | .operand n => v n
  | .and _ l r => (l.value v).and (r.value v)
  | .or _ l r => (l.value v).or (r.value v)
  | .not _ f => (f.value v).not

/-- Operands that do nothing but yield a value make the formula yield its own. -/
lemma denote_pure {m : Type → Type} [Monad m] [LawfulMonad m] (v : Node → Kleene) (f : Formula) :
    f.denote (m := m) (fun n => pure (v n)) = pure (f.value v) := by
  induction f with
  | operand n => rfl
  | and sp l r ihl ihr =>
    rw [denote, ihl, pure_bind, ihr, value]
    cases l.value v <;> simp [Kleene.and]
  | or sp l r ihl ihr =>
    rw [denote, ihl, pure_bind, ihr, value]
    cases l.value v <;> simp [Kleene.or]
  | not sp f ih => rw [denote, ih, pure_bind, value]

/-- The numbers of the names that the connectives of a formula bind. -/
def numbers : Formula → Nat → List Nat
  | .operand _, _ => []
  | .and _ l r, k | .or _ l r, k =>
    l.numbers k ++ r.numbers (l.compiled k).2 ++ [(r.compiled (l.compiled k).2).2 + 1]
  | .not _ f, k => f.numbers k

lemma le_compiled_counter (f : Formula) (k : Nat) : k ≤ (f.compiled k).2 := by
  rw [← patch_tree_counter]
  exact le_patch_counter f.tree k

lemma numbers_spec (f : Formula) (k : Nat) :
    (f.numbers k).Nodup ∧ ∀ j ∈ f.numbers k, k < j ∧ j ≤ (f.compiled k).2 := by
  induction f generalizing k with
  | operand n => exact ⟨nodup_nil, by simp [numbers]⟩
  | and sp l r ihl ihr | or sp l r ihl ihr =>
    obtain ⟨hl, hl'⟩ := ihl k
    obtain ⟨hr, hr'⟩ := ihr (l.compiled k).2
    have hk := l.le_compiled_counter k
    have hk' := r.le_compiled_counter (l.compiled k).2
    simp only [numbers, compiled]
    refine ⟨?_, ?_⟩
    · -- the numbers of the two sides lie in successive intervals, the new one above both
      rw [nodup_append, nodup_append]
      refine ⟨⟨hl, hr, fun a ha b hb => ?_⟩, nodup_singleton _, fun a ha b hb => ?_⟩
      · have := hl' a ha
        have := hr' b hb
        omega
      · rw [mem_singleton.1 hb]
        rcases mem_append.1 ha with ha | ha
        · have := hl' a ha
          omega
        · have := hr' a ha
          omega
    · intro j hj
      simp only [mem_append, mem_singleton] at hj
      rcases hj with (hj | hj) | rfl
      · have := hl' j hj
        omega
      · have := hr' j hj
        omega
      · omega
  | not sp f ih => exact ih k

/-- The lowered program of a formula is its left-to-right, short-circuiting computation,
whatever the operands do; for operands that only yield values its value is the strong
Kleene one; its connectives bind different names, and no operand looks one of them up. -/
theorem lowered {m : Type → Type} [Monad m] [LawfulMonad m] [MonadExcept String m]
    (lib : EffLib m) (f : Formula) (k : Nat) (s : Bindings) (p : Option VmValue)
    (sem : Node → m Kleene) (hnames : ∀ n ∈ f.operands, ∀ x ∈ n.reads, SourceName x)
    (hsem : ∀ n ∈ (f.compiled k).1.operands, evalM lib n s p = result (sem n)) :
    evalM lib (f.tree.patch k).1 s p = result ((f.compiled k).1.denote sem) ∧
    (∀ v : Node → Kleene, (∀ n ∈ (f.compiled k).1.operands, sem n = pure (v n)) →
      evalM lib (f.tree.patch k).1 s p = pure (.bl ((f.compiled k).1.value v).value)) ∧
    ((f.numbers k).map scName).Nodup ∧
    ∀ j ∈ f.numbers k, ∀ n ∈ (f.compiled k).1.operands, scName j ∉ n.reads := by
  have hcode := f.evalM_tree k hnames hsem fun _ _ => rfl
  refine ⟨hcode, ?_, ?_, ?_⟩
  · intro v hv
    have hsem' : ∀ n ∈ (f.compiled k).1.operands, evalM lib n s p = result (pure (v n)) :=
      fun n hn => (hsem n hn).trans (by rw [hv n hn])
    have hcode' :=
      @evalM_tree m _ _ _ lib f (fun n => pure (v n)) s p k hnames hsem' s fun _ _ => rfl
    rw [hcode', denote_pure, result, map_pure]
  · exact (f.numbers_spec k).1.map scName_injective
  · intro j hj n hn hread
    obtain ⟨n', hn', hx⟩ := mem_reads_compiled hn hread
    exact (hnames n' hn' _ hx).ne_scName j rfl

/-- A library whose functions count their calls and answer false. -/
def countingLib : EffLib (StateT Nat (Except String)) where
  base := .empty
  fn _ _ := do
    modify (· + 1)
    pure (.bl (.boolean false))
  native _ _ := throw "no operators"

/-- `probe() and probe()` makes one call. -/
theorem lowered_probe : (evalM countingLib ((Formula.and .word (.operand (.fn "probe" []))
      (.operand (.fn "probe" []))).tree.patch 0).1 (fun _ => none) none).run 0 =
        .ok (.bl (.boolean false), 1) := by
  have h := lowered countingLib
    (.and .word (.operand (.fn "probe" [])) (.operand (.fn "probe" []))) 0 (fun _ => none) none
    (fun _ => do modify (· + 1); pure .false)
      (by simp [operands, Node.fn, reads, calleeName, readsAll])
    (by
      intro n hn
      have hn' : n = .fn "probe" [] := by
        simpa [compiled, operands, Node.fn, patch, patchAll, patchCall] using hn
      subst hn'
      rfl)
  rw [h.1]
  rfl

end Formula

end Blkit
