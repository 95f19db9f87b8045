import Blkit.Expr.Node

/-!
# The patcher

`feelPatcher.Visit` rewrites a parsed tree into calls of the engine's functions,
bottom up: when a node is visited its children have been rewritten already.  The
counter numbers the `let` names of lowered `and`/`or`.
-/

namespace Blkit

namespace Node

/-- `binaryDispatch`. -/
def binaryDispatch : BinaryOp → Option String
  | .add => some "__add"
  | .sub => some "__sub"
  | .mul => some "__mul"
  | .div => some "__div"
  | .pow | .caret => some "__pow"
  | .lt => some "__lt"
  | .le => some "__le"
  | .gt => some "__gt"
  | .ge => some "__ge"
  | .eq => some "__eq"
  | .ne => some "__ne"
  | _ => none

/-- `lowerLogical`: `let v = a; (guard(v) ? __val(v) : combine(v, b))`. -/
def lowerLogical (left right : Node) (guardFn combineFn : String) (counter : Nat) : Node :=
  let name := "__sc" ++ toString counter
  .letIn name left (.conditional (fn guardFn [.ident name]) (fn "__val" [.ident name])
    (fn combineFn [.ident name, right]))

/-- `patchUnary`. -/
def patchUnary : UnaryOp → Node → Node
  | .neg, n => fn "__neg" [n]
  | .not, n | .bang, n => fn "__not" [n]
  | .plus, n => n

/-- `patchBinary`; a logical operator takes the next number. -/
def patchBinary (op : BinaryOp) (l r : Node) (counter : Nat) : Node × Nat :=
  match op with
  | .and | .ampAmp => (lowerLogical l r "__isFalse" "__blAnd" (counter + 1), counter + 1)
  | .or | .pipePipe => (lowerLogical l r "__isTrue" "__blOr" (counter + 1), counter + 1)
  | .isIn => (fn "__in" [l, r], counter)
  | op =>
    match binaryDispatch op with
    | some f => (fn f [l, r], counter)
    | none => (.binary op l r, counter)

/-! ## Row scope -/

mutual

/-- `rewriteRowColumns`: bare names become columns of the row bound to `item`. -/
def rewriteRowColumns : Node → Node
  | .ident name =>
    if name = "item" then .ident name
    else fn "componentAccess" [.ident "item", .const (.string name)]
  | .call callee args => .call callee (rewriteRowColumnsAll args)
  | .builtin name args => .builtin name (rewriteRowColumnsAll args)
  | .conditional c a b =>
    .conditional (rewriteRowColumns c) (rewriteRowColumns a) (rewriteRowColumns b)
  | .member n p m => .member (rewriteRowColumns n) p m
  | .array ns => .array (rewriteRowColumnsAll ns)
  | n => n

/-- `rewriteRowColumns` on every argument. -/
def rewriteRowColumnsAll : List Node → List Node
  | [] => []
  | n :: ns => rewriteRowColumns n :: rewriteRowColumnsAll ns

end

mutual

/-- `referencesItem`: the tree mentions the name `item`. -/
def referencesItem : Node → Bool
  | .ident name => name == "item"
  | .unary _ n | .chain n | .predicate n => referencesItem n
  | .binary _ l r => referencesItem l || referencesItem r
  | .member n p _ => referencesItem n || referencesItem p
  | .slice n bs => referencesItem n || referencesItemAny bs
  | .call c args => referencesItem c || referencesItemAny args
  | .builtin _ args => referencesItemAny args
  | .conditional c a b => referencesItem c || referencesItem a || referencesItem b
  | .letIn _ v e => referencesItem v || referencesItem e
  | .array ns => referencesItemAny ns
  | .map _ vs => referencesItemAny vs
  | _ => false

/-- `referencesItem` of some argument. -/
def referencesItemAny : List Node → Bool
  | [] => false
  | n :: ns => referencesItem n || referencesItemAny ns

end

/-- `booleanOpNames`. -/
def booleanOpNames : List String :=
  ["__lt", "__le", "__gt", "__ge", "__eq", "__ne", "__blAnd", "__blOr", "__not", "__in", "__truthy"]

/-- `isFilterPredicate`: a bracket property that filters rows. -/
def isFilterPredicate (n : Node) : Bool :=
  referencesItem n ||
    match n with
    | .conditional _ _ _ => true
    | .call (.ident name) _ => booleanOpNames.contains name
    | _ => false

/-- The closure `{let item = #; body}`. -/
def itemClosure (body : Node) : Node := .predicate (.letIn "item" .pointer body)

/-- `lowerFilter`. -/
def lowerFilter (recv pred : Node) (negate : Bool) : Node :=
  let rewritten := rewriteRowColumns pred
  let body := fn "__truthy" [if negate then fn "__not" [rewritten] else rewritten]
  fn "__retable" [recv, .builtin "filter" [fn "__items" [recv], itemClosure body]]

/-- `lowerWithColumn`. -/
def lowerWithColumn (recv name expr : Node) : Node :=
  fn "__withColumn" [recv, name,
    .builtin "map" [fn "__items" [recv], itemClosure (rewriteRowColumns expr)]]

/-- The name/expression pairs of `agg`, the expressions in row scope. -/
def aggPairs : List Node → List Node
  | name :: expr :: rest => name :: rewriteRowColumns expr :: aggPairs rest
  | _ => []

/-- `lowerGroupAgg`. -/
def lowerGroupAgg (recv : Node) (keys aggArgs : List Node) : Node :=
  let dictArgs :=
    keys.flatMap (fun k => [k, fn "__groupKey" [.ident "item", k]]) ++ aggPairs aggArgs
  fn "__wraptable" [.builtin "map"
    [fn "__groups" [recv, fn "__mklist" keys], itemClosure (fn "__mkdict" dictArgs)]]

/-! ## Members, calls and dictionaries -/

/-- `patchMember`. -/
def patchMember (n property : Node) (method : Bool) : Node :=
  if method then .member n property method
  else match property.stringProperty with
    | some name => fn "componentAccess" [n, .const (.string name)]
    | none =>
      if isFilterPredicate property then lowerFilter n property false
      else fn "__index" [n, property]

/-- `tableMethodBackings`. -/
def tableMethodBacking : String → Option String
  | "select" => some "__tableSelect"
  | "rename" => some "__tableRename"
  | "distinct" => some "__tableDistinct"
  | "sort" => some "__tableSort"
  | "slice" => some "__tableSlice"
  | "toList" => some "__tableToList"
  | "toDict" => some "__tableToDict"
  | "toValue" => some "__tableToValue"
  | "union" => some "union"
  | "join" => some "join"
  | _ => none

/-- The receiver and keys of a `groupBy` call. -/
def groupByCall : Node → Option (Node × List Node)
  | .call (.member recv property _) keys =>
    if property.stringProperty = some "groupBy" then some (recv, keys) else none
  | _ => none

/-- `patchCall` on a method call `recv.name(args…)`. -/
def patchMethod (recv : Node) (name : String) (args : List Node) : Option Node :=
  match tableMethodBacking name with
  | some backing => some (fn backing (recv :: args))
  | none =>
    match name, args with
    | "filter", [pred] => some (lowerFilter recv pred false)
    | "filterOut", [pred] => some (lowerFilter recv pred true)
    | "withColumn", [column, expr] => some (lowerWithColumn recv column expr)
    | "agg", aggArgs => (groupByCall recv).map fun g => lowerGroupAgg g.1 g.2 aggArgs
    | _, _ => none

/-- `patchCall`. -/
def patchCall (callee : Node) (args : List Node) : Node :=
  match callee with
  | .member recv property _ =>
    match property.stringProperty with
    | some name => (patchMethod recv name args).getD (.call callee args)
    | none => .call callee args
  | _ => .call callee args

/-- The entries of a dictionary literal that have a constant key. -/
def mapEntries (keys : List (Option String)) (values : List Node) : List (String × Node) :=
  (keys.zip values).filterMap fun p => p.1.map fun k => (k, p.2)

/-- `lowerMap`: keys that are identifiers are bound in turn, so that later values
may refer to them. -/
def lowerMap (keys : List (Option String)) (values : List Node) : Node :=
  let entries := mapEntries keys values
  let args := entries.flatMap fun e =>
    [.const (.string e.1), if validIdentifier e.1 then .ident e.1 else e.2]
  entries.foldr (fun e inner => if validIdentifier e.1 then .letIn e.1 e.2 inner else inner)
    (fn "__mkdict" args)

/-! ## The walk -/

mutual

/-- The walk with `Visit`: the tree, and the counter, after the children and then
the node itself have been visited. -/
def patch : Node → Nat → Node × Nat
  | .ident name, k => (.ident name, k)
  | .int v, k => (.const (.number v), k)
  | .float v, k => (.const (.number v), k)
  | .string s, k => (.const (.string s), k)
  | .bool b, k => (.const (.boolean b), k)
  | .nil, k => (.const .null, k)
  | .const v, k => (.const v, k)
  | .unary op n, k =>
    let n := patch n k
    (patchUnary op n.1, n.2)
  | .binary op l r, k =>
    let l := patch l k
    let r := patch r l.2
    patchBinary op l.1 r.1 r.2
  | .member n p method, k =>
    let n := patch n k
    let p := patch p n.2
    (patchMember n.1 p.1 method, p.2)
  | .chain n, k =>
    let n := patch n k
    (.chain n.1, n.2)
  | .slice n bs, k =>
    let n := patch n k
    let bs := patchAll bs n.2
    (.slice n.1 bs.1, bs.2)
  | .call c args, k =>
    let c := patch c k
    let args := patchAll args c.2
    (patchCall c.1 args.1, args.2)
  | .builtin name args, k =>
    let args := patchAll args k
    (.builtin name args.1, args.2)
  | .predicate n, k =>
    let n := patch n k
    (.predicate n.1, n.2)
  | .pointer, k => (.pointer, k)
  | .conditional c a b, k =>
    let c := patch c k
    let a := patch a c.2
    let b := patch b a.2
    (.conditional (fn "__truthy" [c.1]) a.1 b.1, b.2)
  | .letIn name v e, k =>
    let v := patch v k
    let e := patch e v.2
    (.letIn name v.1 e.1, e.2)
  | .array ns, k =>
    let ns := patchAll ns k
    (fn "__mklist" ns.1, ns.2)
  | .map keys values, k =>
    let values := patchAll values k
    (lowerMap keys values.1, values.2)

/-- The walk over a list of children. -/
def patchAll : List Node → Nat → List Node × Nat
  | [], k => ([], k)
  | n :: ns, k =>
    let n := patch n k
    let ns := patchAll ns n.2
    (n.1 :: ns.1, ns.2)

end

/-- The tree that is compiled. -/
def patched (n : Node) : Node := (patch n 0).1

end Node

end Blkit
