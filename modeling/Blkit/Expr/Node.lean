import Blkit.Text.Basic
import Blkit.Value.Basic

/-!
# Expression trees

The trees of the embedded expression language, as far as the engine builds or
inspects them.  `Node` has one constructor per node type of its `ast` package.  A
dictionary literal keeps its keys as `stringProperty` reads them (`none` for a
computed key, which no pass looks into).
-/

namespace Blkit

/-- The prefix operators. -/
inductive UnaryOp where
  | neg | not | bang | plus
deriving DecidableEq, Repr

/-- The infix operators; `other` are the ones the engine leaves alone. -/
inductive BinaryOp where
  | and | ampAmp | or | pipePipe | isIn
  | add | sub | mul | div | pow | caret | lt | le | gt | ge | eq | ne
  | other (token : String)
deriving DecidableEq, Repr

/-- `ast.Node`. -/
inductive Node where
  | ident (name : String)
  | int (value : Int)
  | float (value : ℚ)
  | string (value : String)
  | bool (value : Bool)
  | nil
  | const (value : BlValue)
  | unary (op : UnaryOp) (node : Node)
  | binary (op : BinaryOp) (left right : Node)
  | member (node property : Node) (method : Bool)
  | chain (node : Node)
  | slice (node : Node) (bounds : List Node)
  | call (callee : Node) (args : List Node)
  | builtin (name : String) (args : List Node)
  | predicate (body : Node)
  | pointer
  | conditional (cond exp1 exp2 : Node)
  | letIn (name : String) (value expr : Node)
  | array (nodes : List Node)
  | map (keys : List (Option String)) (values : List Node)

namespace Node

/-- `call`: a call of a function by name. -/
def fn (name : String) (args : List Node) : Node := .call (.ident name) args

/-- `stringProperty`: a constant property name, also a bare identifier. -/
def stringProperty : Node → Option String
  | .string s => some s
  | .const (.string s) => some s
  | .ident name => some name
  | _ => none

/-- The name of a plainly called function. -/
def calleeName : Node → Option String
  | .ident name => some name
  | _ => none

/-- The node is a closure. -/
def isPredicate : Node → Bool
  | .predicate _ => true
  | _ => false

end Node

/-- `validIdentifier`. -/
def validIdentifier (name : String) : Bool :=
  match name.toList with
  | [] => false
  | c :: cs => isIdentStart c && cs.all isIdentByte

end Blkit
