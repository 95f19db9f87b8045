import Blkit.Expr.Eval
import Blkit.Expr.Free

/-!
# Running a compiled tree with effects

The evaluator of `Blkit.Expr.Eval` over an arbitrary monad: library functions and
the host language's operators may act (count their calls, write a log, read a
clock), and so may the closures handed to builtins.  An equation between two
computations that holds in every monad says that they call the same functions in
the same order, which an equation between values cannot say.  In the error monad
this is `eval` again (`evalM_eff`).
-/

namespace Blkit

open Node List Function

variable {m : Type → Type}

/-- An argument of a builtin: a value, or a closure over the current element. -/
inductive EffArg (m : Type → Type) where
  | val (v : VmValue)
  | fn (body : VmValue → m VmValue)

/-- A library whose functions act in a monad.  The functions the lowering relies on
only need the values of library functions, which `base` has. -/
structure EffLib (m : Type → Type) where
  base : Lib
  fn : String → List VmValue → m VmValue
  native : String → List (EffArg m) → m VmValue

/-- The argument without effects. -/
def EffArg.toArg : EffArg (Except String) → Arg
  | .val v => .val v
  | .fn body => .fn body

/-- A library without effects. -/
def Lib.eff (lib : Lib) : EffLib (Except String) where
  base := lib
  fn := lib.fn
  native name args := lib.native name (args.map EffArg.toArg)

section Monadic

variable [Monad m] [MonadExcept String m]

/-- A fallible result as a computation. -/
def ofExcept {α : Type} : Except String α → m α
  | .ok v => pure v
  | .error e => throw e

/-- A function by name. -/
def callFnM (lib : EffLib m) (f : String) (vs : List VmValue) : m VmValue :=
  match (intrinsics lib.base).lookup f with
  | some g => ofExcept (g vs)
  | none => lib.fn f vs

/-- The elements a closure accepts; it must answer a Go boolean. -/
def filterSliceM (f : VmValue → m VmValue) : List VmValue → m (List VmValue)
  | [] => pure []
  | x :: xs => do
    match ← f x with
    | .bool b =>
      let rest ← filterSliceM f xs
      pure (if b then x :: rest else rest)
    | _ => throw "filter: the closure did not yield a bool"

/-- A builtin by name. -/
def callBuiltinM (lib : EffLib m) (name : String) (args : List (EffArg m)) : m VmValue :=
  match name, args with
  | "map", [.val (.slice xs), .fn f] => .slice <$> xs.mapM f
  | "filter", [.val (.slice xs), .fn f] => .slice <$> filterSliceM f xs
  | name, args => lib.native name args

mutual

/-- The computation of a tree, given the names in scope and the current element `#`. -/
def evalM (lib : EffLib m) : Node → Bindings → Option VmValue → m VmValue
  | .ident name, s, _ =>
    match s name with
    | some v => pure v
    | none => throw ("unknown name " ++ name)
  | .int v, _, _ => pure (.bl (.number v))
  | .float v, _, _ => pure (.bl (.number v))
  | .string v, _, _ => pure (.bl (.string v))
  | .bool b, _, _ => pure (.bl (.boolean b))
  | .nil, _, _ => pure (.bl .null)
  | .const v, _, _ => pure (.bl v)
  | .pointer, _, p =>
    match p with
    | some v => pure v
    | none => throw "cannot use pointer accessor outside closure"
  | .unary op n, s, p => do
    let v ← evalM lib n s p
    lib.native op.token [.val v]
  | .binary op l r, s, p => do
    let a ← evalM lib l s p
    let b ← evalM lib r s p
    lib.native op.token [.val a, .val b]
  | .member n property _, s, p => do
    let a ← evalM lib n s p
    let b ← evalM lib property s p
    lib.native "." [.val a, .val b]
  | .chain n, s, p => evalM lib n s p
  | .slice n bounds, s, p => do
    let v ← evalM lib n s p
    let bs ← evalAllM lib bounds s p
    lib.native ":" (.val v :: bs.map .val)
  | .call callee args, s, p =>
    match callee.calleeName with
    | some f => do
      let vs ← evalAllM lib args s p
      callFnM lib f vs
    | none => do
      let c ← evalM lib callee s p
      let vs ← evalAllM lib args s p
      lib.native "()" (.val c :: vs.map .val)
  | .builtin name args, s, p => do
    let as ← evalArgsM lib args s p
    callBuiltinM lib name as
  | .predicate body, s, p => evalM lib body s p
  | .conditional c a b, s, p => do
    match ← evalM lib c s p with
    | .bool true => evalM lib a s p
    | .bool false => evalM lib b s p
    | _ => throw "the condition did not yield a bool"
  | .letIn name v e, s, p => do
    let x ← evalM lib v s p
    evalM lib e (Function.update s name (some x)) p
  | .array ns, s, p => do
    let vs ← evalAllM lib ns s p
    pure (.slice vs)
  | .map _ values, s, p => do
    let vs ← evalAllM lib values s p
    lib.native "\x7b" (vs.map .val)

/-- The computations of the arguments, left to right. -/
def evalAllM (lib : EffLib m) : List Node → Bindings → Option VmValue → m (List VmValue)
  | [], _, _ => pure []
  | n :: ns, s, p => do
    let v ← evalM lib n s p
    let vs ← evalAllM lib ns s p
    pure (v :: vs)

/-- The arguments of a builtin: a closure is not run yet. -/
def evalArgsM (lib : EffLib m) : List Node → Bindings → Option VmValue → m (List (EffArg m))
  | [], _, _ => pure []
  | n :: ns, s, p =>
    if n.isPredicate then do
      let as ← evalArgsM lib ns s p
      pure (.fn (fun x => evalM lib n s (some x)) :: as)
    else do
      let v ← evalM lib n s p
      let as ← evalArgsM lib ns s p
      pure (.val v :: as)

end

/-! ## The names a computation depends on -/

variable {lib : EffLib m}

mutual

/-- A tree's computation only depends on the names it reads. -/
theorem evalM_congr : (n : Node) → {s t : Bindings} → {p : Option VmValue} →
    (∀ x ∈ n.reads, s x = t x) → evalM lib n s p = evalM lib n t p
  | .ident name, s, t, p, h => by
    have := h name (by simp [reads])
    simp only [evalM, this]
  | .int _, _, _, _, _ | .float _, _, _, _, _ | .string _, _, _, _, _ | .bool _, _,
      _, _, _ | .nil, _, _, _, _
  | .const _, _, _, _, _ | .pointer, _, _, _, _ => rfl
  | .predicate n, s, t, p, h | .chain n, s, t, p, h => evalM_congr n (s := s) (t := t) h
  | .unary op n, s, t, p, h => by
    simp only [evalM, evalM_congr n (s := s) (t := t) h]
  | .binary _ n q, s, t, p, h | .member n q _, s, t, p, h => by
    simp only [reads, mem_append] at h
    simp only [evalM, evalM_congr n fun x hx => h x (.inl hx),
      evalM_congr q fun x hx => h x (.inr hx)]
  | .slice n bs, s, t, p, h => by
    simp only [reads, mem_append] at h
    simp only [evalM, evalM_congr n fun x hx => h x (.inl hx),
      evalAllM_congr bs fun x hx => h x (.inr hx)]
  | .call callee args, s, t, p, h => by
    cases hc : callee.calleeName with
    | some f =>
      simp only [reads, hc] at h
      simp only [evalM, hc, evalAllM_congr args h]
    | none =>
      simp only [reads, hc, mem_append] at h
      simp only [evalM, hc, evalM_congr callee fun x hx => h x (.inl hx),
        evalAllM_congr args fun x hx => h x (.inr hx)]
  | .builtin name args, s, t, p, h => by
    simp only [evalM, evalArgsM_congr args (s := s) (t := t) h]
  | .conditional c a b, s, t, p, h => by
    simp only [reads, mem_append] at h
    simp only [evalM, evalM_congr c fun x hx => h x (.inl (.inl hx)),
      evalM_congr a fun x hx => h x (.inl (.inr hx)), evalM_congr b fun x hx => h x (.inr hx)]
  | .letIn name v e, s, t, p, h => by
    simp only [reads, mem_append] at h
    simp only [evalM, evalM_congr v fun x hx => h x (.inl hx)]
    refine bind_congr fun y => evalM_congr e fun x hx => ?_
    by_cases hn : x = name
    · simp [hn]
    · rw [update_of_ne hn, update_of_ne hn]
      exact h x (.inr (by simp [hx, hn]))
  | .array ns, s, t, p, h => by
    simp only [evalM, evalAllM_congr ns (s := s) (t := t) h]
  | .map keys values, s, t, p, h => by
    simp only [evalM, evalAllM_congr values (s := s) (t := t) h]

theorem evalAllM_congr : (ns : List Node) → {s t : Bindings} → {p : Option VmValue} →
    (∀ x ∈ readsAll ns, s x = t x) → evalAllM lib ns s p = evalAllM lib ns t p
  | [], _, _, _, _ => rfl
  | n :: ns, s, t, p, h => by
    simp only [readsAll, mem_append] at h
    simp only [evalAllM, evalM_congr n fun x hx => h x (.inl hx),
      evalAllM_congr ns fun x hx => h x (.inr hx)]

theorem evalArgsM_congr : (ns : List Node) → {s t : Bindings} → {p : Option VmValue} →
    (∀ x ∈ readsAll ns, s x = t x) → evalArgsM lib ns s p = evalArgsM lib ns t p
  | [], _, _, _, _ => rfl
  | n :: ns, s, t, p, h => by
    simp only [readsAll, mem_append] at h
    have hn := fun q => evalM_congr n (s := s) (t := t) (p := q) fun x hx => h x (.inl hx)
    have hns := evalArgsM_congr ns (p := p) fun x hx => h x (.inr hx)
    simp only [evalArgsM, hn, hns]

end

end Monadic

/-! ## Without effects -/

section Pure

variable {lib : Lib}

lemma callFnM_eff (f : String) (vs : List VmValue) : callFnM lib.eff f vs = callFn lib f vs := by
  have hlookup : (intrinsics lib.eff.base).lookup f = (intrinsics lib).lookup f := rfl
  rw [callFnM, callFn, hlookup]
  cases (intrinsics lib).lookup f with
  | none => rfl
  | some g =>
    show ofExcept (g vs) = g vs
    cases g vs <;> rfl

lemma filterSliceM_eff (f : VmValue → Except String VmValue) (xs : List VmValue) :
    filterSliceM f xs = filterSlice f xs := by
  induction xs with
  | nil => rfl
  | cons x xs ih =>
    rw [filterSliceM, filterSlice, ih]
    rfl

/-- A pair of arguments as `map` and `filter` take it. -/
lemma toArg_eq_pair {args : List (EffArg (Except String))} {v : VmValue}
    {f : VmValue → Except String VmValue} (h : args.map EffArg.toArg = [.val v, .fn f]) :
    args = [.val v, .fn f] := by
  match args, h with
  | [.val _, .fn _], h =>
    simp only [map_cons, map_nil, EffArg.toArg, cons.injEq, Arg.val.injEq,
      Arg.fn.injEq, and_true] at h
    rw [h.1, h.2]
  | [.fn _, _], h | [.val _, .val _], h => simp [EffArg.toArg] at h
  | [], h | [_], h | _ :: _ :: _ :: _, h => simp at h

lemma callBuiltinM_eff (name : String) (args : List (EffArg (Except String))) :
    callBuiltinM lib.eff name args = callBuiltin lib name (args.map EffArg.toArg) := by
  unfold callBuiltinM
  split
  · rfl
  · rw [filterSliceM_eff]
    rfl
  case _ hmap hfilter =>
    unfold callBuiltin
    split
    case _ xs f hargs => exact absurd (toArg_eq_pair hargs) (hmap xs f rfl)
    case _ xs f hargs => exact absurd (toArg_eq_pair hargs) (hfilter xs f rfl)
    case _ => rfl

mutual

/-- Without effects, the computation of a tree is its value. -/
theorem evalM_eff : (n : Node) → (s : Bindings) → (p : Option VmValue) →
    evalM lib.eff n s p = eval lib n s p
  | .ident name, s, p => by
    rw [evalM, eval]
    cases s name <;> rfl
  | .int _, _, _ | .float _, _, _ | .string _, _, _ | .bool _, _, _ | .nil,
      _, _ | .const _, _, _ => rfl
  | .pointer, _, p => by
    cases p <;> rfl
  | .predicate n, s, p | .chain n, s, p => evalM_eff n s p
  | .unary op n, s, p => by
    rw [evalM, eval, evalM_eff n]
    rfl
  | .binary op l r, s, p => by
    rw [evalM, eval, evalM_eff l, evalM_eff r]
    rfl
  | .member n q _, s, p => by
    rw [evalM, eval, evalM_eff n, evalM_eff q]
    rfl
  | .slice n bs, s, p => by
    rw [evalM, eval, evalM_eff n, evalAllM_eff bs]
    refine bind_congr fun v => bind_congr fun vs => ?_
    simp only [Lib.eff, map_cons, map_map, EffArg.toArg, comp_def]
  | .call callee args, s, p => by
    rw [evalM, eval]
    cases hc : callee.calleeName with
    | some f => simp only [evalAllM_eff args, callFnM_eff]
    | none =>
      simp only [evalM_eff callee, evalAllM_eff args]
      refine bind_congr fun c => bind_congr fun vs => ?_
      simp only [Lib.eff, map_cons, map_map, EffArg.toArg, comp_def]
  | .builtin name args, s, p => by
    rw [evalM, eval, ← evalArgsM_eff args, map_eq_pure_bind, bind_assoc]
    simp only [pure_bind, callBuiltinM_eff]
  | .conditional c a b, s, p => by
    rw [evalM, eval, evalM_eff c, evalM_eff a, evalM_eff b]
    rfl
  | .letIn name v e, s, p => by
    rw [evalM, eval, evalM_eff v]
    exact bind_congr fun x => evalM_eff e _ p
  | .array ns, s, p => by
    rw [evalM, eval, evalAllM_eff ns]
    rfl
  | .map keys values, s, p => by
    rw [evalM, eval, evalAllM_eff values]
    refine bind_congr fun vs => ?_
    simp only [Lib.eff, map_map, EffArg.toArg, comp_def]

theorem evalAllM_eff : (ns : List Node) → (s : Bindings) → (p : Option VmValue) →
    evalAllM lib.eff ns s p = evalAll lib ns s p
  | [], _, _ => rfl
  | n :: ns, s, p => by
    rw [evalAllM, evalAll, evalM_eff n, evalAllM_eff ns]
    rfl

theorem evalArgsM_eff : (ns : List Node) → (s : Bindings) → (p : Option VmValue) →
    map EffArg.toArg <$> evalArgsM lib.eff ns s p = evalArgs lib ns s p
  | [], _, _ => rfl
  | n :: ns, s, p => by
    have hfun (x : VmValue) : evalM lib.eff n s (some x) = eval lib n s (some x) := evalM_eff n s _
    rw [evalArgsM, evalArgs, ← evalArgsM_eff ns]
    split
    · simp only [map_cons, EffArg.toArg, hfun, map_eq_pure_bind, bind_assoc, pure_bind]
      rfl
    · simp only [evalM_eff n, map_cons, EffArg.toArg, map_eq_pure_bind, bind_assoc, pure_bind]
      rfl

end

end Pure

end Blkit
