import Blkit.Expr.Node

/-!
# The names an expression reads

`freeIdents` is the collector of `check.go`, which runs on the parsed tree and
stops at bracket properties, method arguments and closures.  `reads` is the set of
names the compiled tree can look up when it runs.
-/

namespace Blkit

namespace Node

mutual

/-- `freeIdents`: the free identifiers in value position that the collector finds. -/
def freeIdents (bound : List String) : Node → List String
  | .ident name => if name ∈ bound then [] else [name]
  | .unary _ n => freeIdents bound n
  | .binary _ l r => freeIdents bound l ++ freeIdents bound r
  | .member n _ _ => freeIdents bound n
  | .chain n => freeIdents bound n
  | .slice n bs => freeIdents bound n ++ freeIdentsAll bound bs
  | .call callee args =>
    match callee.calleeName with
    | some _ => freeIdentsAll bound args
    | none => freeIdents bound callee
  | .builtin _ args => freeIdentsAll bound args
  | .conditional c a b => freeIdents bound c ++ freeIdents bound a ++ freeIdents bound b
  | .letIn name v e => freeIdents bound v ++ freeIdents (name :: bound) e
  | .array ns => freeIdentsAll bound ns
  | .map keys values => freeIdentsAll (keys.reduceOption ++ bound) values
  | _ => []

/-- `freeIdents` of all arguments. -/
def freeIdentsAll (bound : List String) : List Node → List String
  | [] => []
  | n :: ns => freeIdents bound n ++ freeIdentsAll bound ns

end

mutual

/-- The names a tree can look up when it runs. -/
def reads : Node → List String
  | .ident name => [name]
  | .unary _ n | .chain n | .predicate n => reads n
  | .binary _ l r => reads l ++ reads r
  | .member n p _ => reads n ++ reads p
  | .slice n bs => reads n ++ readsAll bs
  | .call callee args =>
    match callee.calleeName with
    | some _ => readsAll args
    | none => reads callee ++ readsAll args
  | .builtin _ args => readsAll args
  | .conditional c a b => reads c ++ reads a ++ reads b
  | .letIn name v e => reads v ++ (reads e).filter (· ≠ name)
  | .array ns => readsAll ns
  | .map _ values => readsAll values
  | _ => []

/-- The names a list of trees can look up. -/
def readsAll : List Node → List String
  | [] => []
  | n :: ns => reads n ++ readsAll ns

end

end Node

end Blkit
