import Blkit.Data.Fallible
import Blkit.Expr.Node
import Mathlib.Logic.Function.Basic

/-!
# Running a compiled tree

What the virtual machine computes on a patched tree.  Closures of the builtins
`map` and `filter` iterate a Go slice, so beside values of the language there are
Go booleans and slices.  The functions the lowering passes rely on are defined
here; the rest of the function library, and the host language's own operators and
builtins, are the parameter `Lib`.

## What is taken from the host language

`eval` stands for the virtual machine of the embedded language, and follows what its
definition says of the nodes that the lowering builds:

* a name is looked up in the environment, or is the one bound by the nearest
  `let name = value; body`, which binds it in the body only;
* operands and arguments are evaluated from left to right, each once, and the first error
  ends the evaluation;
* `c ? a : b` evaluates `c`, which must be a Go boolean, and then one of the branches;
* `map(xs, f)` and `filter(xs, f)` run the closure on the elements in order, with `#` as the
  element; the closure of `filter` must yield a Go boolean;
* a registered function is called with the values of its arguments.

Of everything else, such as native operators, member access, slices and the other builtins,
nothing is assumed: it is `Lib.native`.
-/

namespace Blkit

open Fallible

/-- A value on the machine's stack. -/
inductive VmValue where
  | bl (value : BlValue)
  | bool (b : Bool)
  | slice (items : List VmValue)

mutual

/-- `asBl`: the value as one of the language. -/
def VmValue.asBl : VmValue → BlValue
  | .bl v => v
  | .bool b => .boolean b
  | .slice xs => .list (VmValue.asBlAll xs)

/-- `asBl` of every item. -/
def VmValue.asBlAll : List VmValue → List BlValue
  | [] => []
  | x :: xs => x.asBl :: VmValue.asBlAll xs

end

@[simp] lemma VmValue.asBl_bl (v : BlValue) : (VmValue.bl v).asBl = v := rfl

/-- An argument of a builtin: a value, or a closure over the current element. -/
inductive Arg where
  | val (v : VmValue)
  | fn (body : VmValue → Except String VmValue)

/-- The functions and operators that are not defined here: functions by name, the
host language's operators and builtins, and the components of temporal values,
durations and ranges. -/
structure Lib where
  fn : String → List VmValue → Except String VmValue
  native : String → List Arg → Except String VmValue
  component : BlValue → String → Option BlValue

/-! ## Functions the lowering relies on -/

/-- `opTruthy`, `opIsTrue`: a true boolean. -/
def truthy : BlValue → Bool
  | .boolean b => b
  | _ => false

/-- `opIsFalse`: a false boolean. -/
def isFalse : BlValue → Bool
  | .boolean b => !b
  | _ => false

/-- `notFn`. -/
def notFn : BlValue → BlValue
  | .boolean b => .boolean !b
  | _ => .null

/-- `blAndFn`: three-valued conjunction. -/
def blAnd : BlValue → BlValue → BlValue
  | .boolean false, _ => .boolean false
  | _, .boolean false => .boolean false
  | .boolean true, .boolean true => .boolean true
  | _, _ => .null

/-- `blOrFn`: three-valued disjunction. -/
def blOr : BlValue → BlValue → BlValue
  | .boolean true, _ => .boolean true
  | _, .boolean true => .boolean true
  | .boolean false, .boolean false => .boolean false
  | _, _ => .null

/-- `isGoTrue`. -/
def isGoTrue : VmValue → Bool
  | .bool b => b
  | .bl v => truthy v
  | .slice _ => false

/-- `coerceRowList`: what a list, a table or a calendar iterates over. -/
def coerceRowList : BlValue → Option (List BlValue)
  | .list xs => some xs
  | .table _ rows => some (rows.map .dictionary)
  | .calendar es _ _ => some (es.map fun e => .calendarEntry e.1 e.2)
  | _ => none

/-- `BlDictionary.set`. -/
def dictSet : Row → String → BlValue → Row
  | [], k, v => [(k, v)]
  | e :: d, k, v => if e.1 = k then (k, v) :: d else e :: dictSet d k v

/-- `tableComponent`. -/
def tableComponent (columns : List String) (rows : List Row) (name : String) : BlValue :=
  match name with
  | "nRows" => .number rows.length
  | "nCols" => .number columns.length
  | "colNames" => .list (columns.map .string)
  | _ => .list (rows.map fun r => (r.lookup name).getD .null)

mutual

/-- `componentAccessFn`. -/
def componentAccess (lib : Lib) (name : String) : BlValue → BlValue
  | .null => .null
  | .dictionary d => (d.lookup name).getD .null
  | .table columns rows => tableComponent columns rows name
  | .list xs => .list (componentAccessAll lib name xs)
  | v => (lib.component v name).getD .null

/-- `componentAccessFn` on every item of a list. -/
def componentAccessAll (lib : Lib) (name : String) : List BlValue → List BlValue
  | [] => []
  | x :: xs => componentAccess lib name x :: componentAccessAll lib name xs

end

/-- `rowByIndex` and `indexFn` on a list: one-based, negative from the end. -/
def position (n : Nat) (i : Int) : Option Nat :=
  let i := if i < 0 then n + i + 1 else i
  if i < 1 ∨ n < i then none else some (i - 1).toNat

/-- `decimal.IntPart`: toward zero, and of that the low 64 bits as an `int64`. -/
def intPart (q : ℚ) : Int := (q.num.tdiv q.den).bmod (2 ^ 64)

lemma intPart_intCast (i : Int) : intPart i = i.bmod (2 ^ 64) := by
  rw [intPart, Rat.num_intCast, Rat.den_intCast, Nat.cast_one, Int.tdiv_one]

lemma bmod_bounds (i : Int) : -2 ^ 63 ≤ i.bmod (2 ^ 64) ∧ i.bmod (2 ^ 64) < 2 ^ 63 := by
  have hle := i.le_bmod (m := 2 ^ 64) (by decide)
  have hlt := i.bmod_lt (m := 2 ^ 64) (by decide)
  omega

lemma bmod_eq_self_iff (i : Int) : i.bmod (2 ^ 64) = i ↔ -2 ^ 63 ≤ i ∧ i < 2 ^ 63 :=
  ⟨fun h => h ▸ bmod_bounds i, fun h => Int.bmod_eq_of_le (by omega) (by omega)⟩

/-- `indexFn`. -/
def index (lib : Lib) : BlValue → BlValue → Except String VmValue
  | .table columns rows, .number q =>
    .ok (.bl (.table columns (((position rows.length (intPart q)).bind (rows[·]?)).toList)))
  | .table columns rows, .list idx =>
    lib.fn "__tableSlice" [.bl (.table columns rows), .bl (.list idx)]
  | .list xs, .number q => .ok (.bl (((position xs.length (intPart q)).bind (xs[·]?)).getD .null))
  | _, _ => .ok (.bl .null)

mutual

/-- The loop of `flattenFn`: nested lists are spliced in, at every depth. -/
def flattenItems : List BlValue → List BlValue
  | [] => []
  | x :: xs => flattenItem x ++ flattenItems xs

/-- What one item contributes. -/
def flattenItem : BlValue → List BlValue
  | .list xs => flattenItems xs
  | v => [v]

end

/-- The dictionaries among the filtered elements. -/
def dictionaries (xs : List VmValue) : List Row :=
  xs.filterMap fun x =>
    match x.asBl with
    | .dictionary d => some d
    | _ => none

/-- The name of the Go type, as `%T` prints it. -/
def VmValue.goName : VmValue → String
  | .bl v => v.kind.goName
  | .bool _ => "bool"
  | .slice _ => "[]interface \x7b\x7d"

/-- The text of `argTypeError`. -/
def argTypeError {α : Type} (v : VmValue) : Except String α :=
  .error ("type error in call: " ++ argTypeDetail v.goName)

/-- A call of a function there is not, or with the wrong number of arguments, which
the compiler refuses. -/
def callError : Except String VmValue := .error "no such function"

/-- `mkDictFn`. -/
def mkDict : List VmValue → Row → Except String Row
  | .bl (.string k) :: v :: rest, d => mkDict rest (dictSet d k v.asBl)
  | k :: _ :: _, _ => argTypeError k
  | _, d => .ok d

/-- The library without any function. -/
def Lib.empty : Lib where
  fn _ _ := callError
  native _ _ := callError
  component _ _ := none

/-- `itemsFn`. -/
def items (x : VmValue) : Except String VmValue :=
  match coerceRowList x.asBl with
  | some xs => .ok (.slice (xs.map .bl))
  | none => .error "type error in iterate: not a list"

/-- `retableFn`: what is left of a table is a table. -/
def retable (x : VmValue) (xs : List VmValue) : VmValue :=
  match x.asBl with
  | .table columns _ => .bl (.table columns (dictionaries xs))
  | _ => .bl (.list (xs.map VmValue.asBl))

/-- A function of one argument. -/
def unaryFn (f : VmValue → Except String VmValue) : List VmValue → Except String VmValue
  | [x] => f x
  | _ => callError

/-- A function of two arguments. -/
def binaryFn (f : VmValue → VmValue → Except String VmValue) : List VmValue → Except String VmValue
  | [x, y] => f x y
  | _ => callError

/-- A function of a Go slice. -/
def sliceFn (f : List VmValue → VmValue) : VmValue → Except String VmValue
  | .slice xs => .ok (f xs)
  | v => argTypeError v

/-- The functions the lowering relies on, by name. -/
def intrinsics (lib : Lib) : List (String × (List VmValue → Except String VmValue)) :=
  [("__truthy", unaryFn fun x => .ok (.bool (truthy x.asBl))),
    ("__isTrue", unaryFn fun x => .ok (.bool (truthy x.asBl))),
    ("__isFalse", unaryFn fun x => .ok (.bool (isFalse x.asBl))),
    ("__val", unaryFn fun x => .ok (.bl x.asBl)),
    ("__not", unaryFn fun
      | .bl x => .ok (.bl (notFn x))
      | v => argTypeError v),
    ("__blAnd", binaryFn fun x y => .ok (.bl (blAnd x.asBl y.asBl))),
    ("__blOr", binaryFn fun x y => .ok (.bl (blOr x.asBl y.asBl))),
    ("componentAccess", binaryFn fun
      | x, .bl (.string name) => .ok (.bl (componentAccess lib name x.asBl))
      | _, v => argTypeError v),
    ("__index", binaryFn fun x i => index lib x.asBl i.asBl),
    ("__items", unaryFn items),
    ("__wraplist", unaryFn (sliceFn fun xs => .bl (.list (xs.map VmValue.asBl)))),
    ("__anyTrue", unaryFn (sliceFn fun xs => .bl (.boolean (xs.any isGoTrue)))),
    ("__allTrue", unaryFn (sliceFn fun xs => .bl (.boolean (xs.all isGoTrue)))),
    ("__retable", binaryFn fun x => sliceFn (retable x)),
    ("__mklist", fun xs => .ok (.bl (.list (xs.map VmValue.asBl)))),
    ("__mkdict", fun xs => (fun d => .bl (.dictionary d)) <$> mkDict xs []),
    ("flatten", unaryFn fun
      | .bl (.list xs) => .ok (.bl (.list (flattenItems xs)))
      | v => argTypeError v)]

/-- A function by name. -/
def callFn (lib : Lib) (f : String) : List VmValue → Except String VmValue :=
  ((intrinsics lib).lookup f).getD (lib.fn f)

/-- The names of the functions the lowering relies on. -/
def intrinsicNames : List String := (intrinsics .empty).map Prod.fst

lemma callFn_of_not_mem {lib : Lib} {f : String} (h : f ∉ intrinsicNames) :
    callFn lib f = lib.fn f := by
  have hnone : (intrinsics lib).lookup f = none := by
    rw [List.lookup_eq_none_iff]
    rintro ⟨g, body⟩ hg
    have hmem : g ∈ intrinsicNames := List.mem_map_of_mem (f := Prod.fst) hg
    rw [bne_iff_ne]
    rintro rfl
    exact h hmem
  rw [callFn, hnone]
  rfl

/-- The elements a closure accepts; it must answer a Go boolean. -/
def filterSlice (f : VmValue → Except String VmValue) : List VmValue → Except String (List VmValue)
  | [] => .ok []
  | x :: xs => do
    match ← f x with
    | .bool b =>
      let rest ← filterSlice f xs
      .ok (if b then x :: rest else rest)
    | _ => .error "filter: the closure did not yield a bool"

/-- A builtin by name. -/
def callBuiltin (lib : Lib) (name : String) (args : List Arg) : Except String VmValue :=
  match name, args with
  | "map", [.val (.slice xs), .fn f] => .slice <$> xs.mapM f
  | "filter", [.val (.slice xs), .fn f] => .slice <$> filterSlice f xs
  | name, args => lib.native name args

/-! ## Evaluation -/

/-- The names in scope: the environment's, and those bound by `let`. -/
abbrev Bindings := String → Option VmValue

/-- The operator's token. -/
def UnaryOp.token : UnaryOp → String
  | .neg => "-"
  | .not => "not"
  | .bang => "!"
  | .plus => "+"

/-- The operator's token. -/
def BinaryOp.token : BinaryOp → String
  | .and => "and"
  | .ampAmp => "&&"
  | .or => "or"
  | .pipePipe => "||"
  | .isIn => "in"
  | .add => "+"
  | .sub => "-"
  | .mul => "*"
  | .div => "/"
  | .pow => "**"
  | .caret => "^"
  | .lt => "<"
  | .le => "<="
  | .gt => ">"
  | .ge => ">="
  | .eq => "=="
  | .ne => "!="
  | .other token => token

mutual

/-- The value of a tree, given the names in scope and the current element `#`. -/
def eval (lib : Lib) : Node → Bindings → Option VmValue → Except String VmValue
  | .ident name, s, _ =>
    match s name with
    | some v => .ok v
    | none => .error ("unknown name " ++ name)
  | .int v, _, _ => .ok (.bl (.number v))
  | .float v, _, _ => .ok (.bl (.number v))
  | .string v, _, _ => .ok (.bl (.string v))
  | .bool b, _, _ => .ok (.bl (.boolean b))
  | .nil, _, _ => .ok (.bl .null)
  | .const v, _, _ => .ok (.bl v)
  | .pointer, _, p =>
    match p with
    | some v => .ok v
    | none => .error "cannot use pointer accessor outside closure"
  | .unary op n, s, p => do
    let v ← eval lib n s p
    lib.native op.token [.val v]
  | .binary op l r, s, p => do
    let a ← eval lib l s p
    let b ← eval lib r s p
    lib.native op.token [.val a, .val b]
  | .member n property _, s, p => do
    let a ← eval lib n s p
    let b ← eval lib property s p
    lib.native "." [.val a, .val b]
  | .chain n, s, p => eval lib n s p
  | .slice n bounds, s, p => do
    let v ← eval lib n s p
    let bs ← evalAll lib bounds s p
    lib.native ":" (.val v :: bs.map .val)
  | .call callee args, s, p =>
    match callee.calleeName with
    | some f => do
      let vs ← evalAll lib args s p
      callFn lib f vs
    | none => do
      let c ← eval lib callee s p
      let vs ← evalAll lib args s p
      lib.native "()" (.val c :: vs.map .val)
  | .builtin name args, s, p => do
    let as ← evalArgs lib args s p
    callBuiltin lib name as
  | .predicate body, s, p => eval lib body s p
  | .conditional c a b, s, p => do
    match ← eval lib c s p with
    | .bool true => eval lib a s p
    | .bool false => eval lib b s p
    | _ => .error "the condition did not yield a bool"
  | .letIn name v e, s, p => do
    let x ← eval lib v s p
    eval lib e (Function.update s name (some x)) p
  | .array ns, s, p => do
    let vs ← evalAll lib ns s p
    .ok (.slice vs)
  | .map _ values, s, p => do
    let vs ← evalAll lib values s p
    lib.native "\x7b" (vs.map .val)

/-- The values of the arguments, left to right. -/
def evalAll (lib : Lib) : List Node → Bindings → Option VmValue → Except String (List VmValue)
  | [], _, _ => .ok []
  | n :: ns, s, p => do
    let v ← eval lib n s p
    let vs ← evalAll lib ns s p
    .ok (v :: vs)

/-- The arguments of a builtin: a closure is not run yet, and its `#` will be the
element it is run on. -/
def evalArgs (lib : Lib) : List Node → Bindings → Option VmValue → Except String (List Arg)
  | [], _, _ => .ok []
  | n :: ns, s, p =>
    if n.isPredicate then do
      let as ← evalArgs lib ns s p
      .ok (.fn (fun x => eval lib n s (some x)) :: as)
    else do
      let v ← eval lib n s p
      let as ← evalArgs lib ns s p
      .ok (.val v :: as)

end

section Equations

variable {lib : Lib}

lemma callFn_items (x : VmValue) : callFn lib "__items" [x] = items x := rfl

lemma callFn_flatten (xs : List BlValue) :
    callFn lib "flatten" [.bl (.list xs)] = .ok (.bl (.list (flattenItems xs))) := rfl

lemma callBuiltin_map (xs : List VmValue) (f : VmValue → Except String VmValue) :
    callBuiltin lib "map" [.val (.slice xs), .fn f] = .slice <$> xs.mapM f := rfl

lemma callBuiltin_filter (xs : List VmValue) (f : VmValue → Except String VmValue) :
    callBuiltin lib "filter" [.val (.slice xs), .fn f] = .slice <$> filterSlice f xs := rfl

lemma callFn_retable (columns : List String) (rows : List Row) (xs : List VmValue) :
    callFn lib "__retable" [.bl (.table columns rows), .slice xs] =
      .ok (.bl (.table columns (dictionaries xs))) := rfl

lemma callFn_truthy (x : VmValue) : callFn lib "__truthy" [x] = .ok (.bool (truthy x.asBl)) := rfl

lemma eval_fn_one (f : String) (n : Node) (s : Bindings) (p : Option VmValue) :
    eval lib (.fn f [n]) s p = eval lib n s p >>= fun v => callFn lib f [v] := by
  simp only [Node.fn, eval, Node.calleeName, evalAll, bind_assoc, ok_bind]

lemma eval_fn_two (f : String) (m n : Node) (s : Bindings) (p : Option VmValue) :
    eval lib (.fn f [m, n]) s p = eval lib m s p >>= fun v => eval lib n s p >>= fun w =>
      callFn lib f [v, w] := by
  simp only [Node.fn, eval, Node.calleeName, evalAll, bind_assoc, ok_bind]

/-- A builtin that runs a closure over the elements of its first argument. -/
lemma eval_builtin_closure (name f : String) (args : List Node) (body : Node) (s : Bindings)
    (p : Option VmValue) : eval lib (.builtin name [.fn f args, .predicate body]) s p =
      eval lib (.fn f args) s p >>= fun v =>
        callBuiltin lib name [.val v, .fn fun x => eval lib body s (some x)] := by
  have hclosure : evalArgs lib [.predicate body] s p =
      .ok [.fn fun x => eval lib body s (some x)] := rfl
  have hargs : evalArgs lib [.fn f args, .predicate body] s p =
      eval lib (.fn f args) s p >>= fun v => evalArgs lib [.predicate body] s p >>= fun as =>
        .ok (.val v :: as) := rfl
  rw [eval, hargs, hclosure]
  simp only [bind_assoc, ok_bind]

end Equations

/-- The names an environment brings into scope. -/
def bindings (env : String → Option BlValue) : Bindings := fun name => (env name).map .bl

end Blkit
