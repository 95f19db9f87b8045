import Blkit.Data.Assoc
import Blkit.Decision.Handle
import Blkit.Order.Fifo

/-!
# Decision tasks

A decision task is a graph of nodes.  Its edges name handles; a handle knows the
object that owns it, but `Graph` and `Evaluate` only look at the owner's *id* and
the handle's field name, the `handleKey`.  Objects are therefore pointers here
(`ν` for nodes, `ρ` for reference data), and `id` is a function on them that need
not be injective.

The evaluation map remembers for every value the handle that wrote it.  This adds
nothing to what `Evaluate` computes, and it is what the question is about: whether
a destination receives the value *of the handle its edge names*.
-/

namespace Blkit

open Fallible

/-- What a graph sees of a node: its id and its two contracts. -/
structure NodeHeader where
  id : String
  inVars : Contract
  outVars : Contract

/-- A constant of the model; the handle's type is the type of the value. -/
structure ReferenceData where
  id : String
  value : BlValue

/-- The objects the edges of one task can mention. -/
structure Scope (ν ρ : Type) where
  boundaryID : String
  invars : Contract
  outvars : Contract
  node : ν → NodeHeader
  reference : ρ → ReferenceData

/-- The handles an edge can be built from: the stamped handles of the task, of a
node and of reference data, and the unstamped handles of `NewHandle`. -/
inductive Handle (ν ρ : Type) where
  | taskIn (v : DecisionVar)
  | taskOut (v : DecisionVar)
  | nodeIn (n : ν) (v : DecisionVar)
  | nodeOut (n : ν) (v : DecisionVar)
  | reference (r : ρ)
  | bare (elem : Kind)
deriving DecidableEq

/-- `referenceField`: the field name of a reference value's handle. -/
def referenceField : String := "$value"

/-- `handleKey`: owner id and field name. -/
abbrev HandleKey := String × String

variable {ν ρ : Type}

namespace Handle

/-- The handle is a field of its owner's contract. -/
def Exists (S : Scope ν ρ) : Handle ν ρ → Prop
  | .taskIn v => v ∈ S.invars.vars
  | .taskOut v => v ∈ S.outvars.vars
  | .nodeIn n v => v ∈ (S.node n).inVars.vars
  | .nodeOut n v => v ∈ (S.node n).outVars.vars
  | .reference _ => True
  | .bare _ => True

/-- The type parameter of the handle. -/
def elem (S : Scope ν ρ) : Handle ν ρ → Kind
  | .taskIn v | .taskOut v | .nodeIn _ v | .nodeOut _ v => v.elem
  | .reference r => (S.reference r).value.kind
  | .bare k => k

/-- `ref`: the id and field the handle was stamped with. -/
def key (S : Scope ν ρ) : Handle ν ρ → HandleKey
  | .taskIn v | .taskOut v => (S.boundaryID, v.name)
  | .nodeIn n v | .nodeOut n v => ((S.node n).id, v.name)
  | .reference r => ((S.reference r).id, referenceField)
  | .bare _ => ("", "")

/-- The owner, when it is a node other than the task itself. -/
def node? : Handle ν ρ → Option ν
  | .nodeIn n _ | .nodeOut n _ => some n
  | _ => none

/-- The owner, when it is reference data. -/
def reference? : Handle ν ρ → Option ρ
  | .reference r => some r
  | _ => none

end Handle

/-- `Edge`: both handles exist and have the same type, which the Go compiler checks. -/
structure Edge (S : Scope ν ρ) where
  src : Handle ν ρ
  dst : Handle ν ρ
  src_exists : src.Exists S
  dst_exists : dst.Exists S
  sameType : src.elem S = dst.elem S

/-! ## Graph -/

/-- The problems `Graph` reports. -/
inductive GraphProblem where
  | wiredTwice (node field : String)
  | noNodes
  | emptyId
  | inputNotWired (node field : String)
  | outputNotWired (field : String)
  | cycle
deriving DecidableEq, Repr

/-- The text of a problem. -/
def GraphProblem.message : GraphProblem → String
  | .wiredTwice node field => "input " ++ node ++ "." ++ field ++ " is wired more than once"
  | .noNodes => "the graph wires no nodes"
  | .emptyId => "a node has an empty Id"
  | .inputNotWired node field =>
    "node " ++ node.quote ++ " input " ++ field.quote ++ " is not wired"
  | .outputNotWired field => "task output " ++ field.quote ++ " is not wired"
  | .cycle => "the graph contains a cycle"

/-- A value of the evaluation map, with the handle that wrote it. -/
structure Cell (ν ρ : Type) where
  writer : Handle ν ρ
  value : BlValue

/-- The evaluation map. -/
abbrev Store (ν ρ : Type) := HandleKey → Option (Cell ν ρ)

section Graph

variable (S : Scope ν ρ) (edges : List (Edge S))

/-- The nodes the edges mention, in the order in which `Graph` meets them. -/
def endpoints : List ν := edges.flatMap fun e => e.src.node?.toList ++ e.dst.node?.toList

/-- The map `nodes`: a node met later replaces one of the same id. -/
def nodeMap : String → Option ν :=
  writeAll (fun n => (S.node n).id) (fun n => n) (endpoints S edges)

/-- The reference data the edges start from, in the order of the edges. -/
def references : List ρ := edges.filterMap fun e => e.src.reference?

/-- The map `refVals`: a later value replaces one of the same id. -/
def refVals : Store ν ρ :=
  writeAll (fun r => ((S.reference r).id, referenceField))
    (fun r => ⟨.reference r, (S.reference r).value⟩) (references S edges)

/-- The map `dstSrc`: the source key of a destination key. -/
def dstSrc : HandleKey → Option HandleKey :=
  writeAll (fun e => e.dst.key S) (fun e => e.src.key S) edges

/-- The destinations that were already wired when their edge was met. -/
def wiredTwice : List (Edge S) → List HandleKey → List GraphProblem
  | [], _ => []
  | e :: es, seen =>
    (if e.dst.key S ∈ seen then [.wiredTwice (e.dst.key S).1 (e.dst.key S).2] else []) ++
      wiredTwice es (e.dst.key S :: seen)

/-- The ids an edge connects, when both ends are nodes. -/
def Edge.link {S : Scope ν ρ} (e : Edge S) : Option (String × String) :=
  match e.src.node?, e.dst.node? with
  | some m, some n => some ((S.node m).id, (S.node n).id)
  | _, _ => none

/-- The node-to-node connections by id, each once, in the order of the edges. -/
def links : List (String × String) := keepFirst (edges.filterMap Edge.link)

/-- `adj`. -/
def adj (id : String) : List String := ((links S edges).filter (·.1 = id)).map (·.2)

/-- `indeg`. -/
def indeg (id : String) : Int := ((links S edges).filter (·.2 = id)).length

/-- `topoSortNodes`: the ids in evaluation order, given the order in which the map
of nodes happens to be iterated. -/
def topoSortNodes (ids : List String) : List String := Fifo.sort (adj S edges) (indeg S edges) ids

/-- Every problem `Graph` finds, given the iteration order of its map of nodes. -/
def graphProblems (ids : List String) : List GraphProblem :=
  wiredTwice S edges [] ++
  (if ids = [] then [.noNodes] else []) ++
  ids.flatMap (fun id => (if id = "" then [.emptyId] else []) ++
    ((nodeMap S edges id).toList.flatMap fun n => (S.node n).inVars.vars.filterMap fun v =>
      if (dstSrc S edges (id, v.name)).isSome then none else some (.inputNotWired id v.name))) ++
  (S.outvars.vars.filterMap fun v =>
    if (dstSrc S edges (S.boundaryID, v.name)).isSome then none
    else some (.outputNotWired v.name)) ++
  (if (topoSortNodes S edges ids).length = ids.length then [] else [.cycle])

/-- `Graph`: the problems are raised together. -/
def graph (ids : List String) : Except (List String) Unit :=
  match graphProblems S edges ids with
  | [] => .ok ()
  | p :: ps => .error ((p :: ps).map GraphProblem.message)

variable {S edges}

lemma graph_eq_ok {ids : List String} :
    graph S edges ids = .ok () ↔ graphProblems S edges ids = [] := by
  rw [graph]
  cases graphProblems S edges ids <;> simp

end Graph

/-- A task whose `Graph` call returned: some iteration order of the map of nodes,
for which it raised no problem. -/
structure DecisionTask (S : Scope ν ρ) where
  edges : List (Edge S)
  ids : List String
  ids_nodup : ids.Nodup
  mem_ids : ∀ id, id ∈ ids ↔ (nodeMap S edges id).isSome
  accepted : graph S edges ids = .ok ()

/-! ## Evaluate -/

/-- What the nodes of a task compute. -/
abbrev Behaviour (S : Scope ν ρ) :=
  (n : ν) → Filled (S.node n).inVars → Result (Filled (S.node n).outVars)

/-- `runErased`: a node on named values. -/
def runErased {S : Scope ν ρ} (B : Behaviour S) (n : ν) (ins : String → Option BlValue) :
    Result (String → Option BlValue) := do
  let input ← inputFromMap (S.node n).inVars ins
  let out ← B n input
  .ok (outputToMap out)

/-- Store a node's outputs under its id. -/
def writeOutputs (S : Scope ν ρ) (n : ν) (out : String → Option BlValue) (env : Store ν ρ) :
    Store ν ρ := fun k =>
  if k.1 = (S.node n).id then
    match (S.node n).outVars.find k.2 with
    | some v => some ⟨.nodeOut n v, (out v.name).getD .null⟩
    | none => env k
  else env k

/-- One node evaluation: what the node was given and what came out. -/
structure Visit (ν ρ : Type) where
  node : ν
  inputs : String → Option (Cell ν ρ)
  outcome : Result (String → Option BlValue)

namespace DecisionTask

variable {S : Scope ν ρ} (T : DecisionTask S)

/-- The nodes in evaluation order. -/
def order : List ν := (topoSortNodes S T.edges T.ids).filterMap (nodeMap S T.edges)

/-- A lookup in `dstSrc`; a missing entry reads as the empty key. -/
def source (k : HandleKey) : HandleKey := (dstSrc S T.edges k).getD ("", "")

/-- The evaluation map before any node has run: reference values, then task inputs. -/
def start (input : Filled S.invars) : Store ν ρ := fun k =>
  if k.1 = S.boundaryID then
    match S.invars.find k.2 with
    | some v => some ⟨.taskIn v, input.getValue v.name⟩
    | none => refVals S T.edges k
  else refVals S T.edges k

/-- The map `inMap` a node is run on. -/
def inMap (env : Store ν ρ) (n : ν) : String → Option (Cell ν ρ) := fun name =>
  if name ∈ (S.node n).inVars.names then env (T.source ((S.node n).id, name)) else none

/-- The loop over the nodes: every evaluation made, and the final map unless a
node failed. -/
def visits (B : Behaviour S) : List ν → Store ν ρ → List (Visit ν ρ) × Result (Store ν ρ)
  | [], env => ([], .ok env)
  | n :: ns, env =>
    let ins := T.inMap env n
    match runErased B n (fun name => (ins name).map Cell.value) with
    | .error e => ([⟨n, ins, .error e⟩], .error e)
    | .ok out =>
      let rest := visits B ns (writeOutputs S n out env)
      (⟨n, ins, .ok out⟩ :: rest.1, rest.2)

/-- The run of a task on an input. -/
def run (B : Behaviour S) (input : Filled S.invars) : List (Visit ν ρ) × Result (Store ν ρ) :=
  T.visits B T.order (T.start input)

/-- What a task output receives; a value that is not there is null. -/
def outCell (env : Store ν ρ) (v : DecisionVar) : Option (Cell ν ρ) :=
  env (T.source (S.boundaryID, v.name))

/-- `Evaluate`. -/
def evaluate (B : Behaviour S) (input : Filled S.invars) : Result (Filled S.outvars) := do
  let env ← (T.run B input).2
  S.outvars.fill fun v => .ok (some (((T.outCell env v).map Cell.value).getD .null))

end DecisionTask

end Blkit
