import Blkit.Data.Assoc
import Blkit.Decision.Handle
import Blkit.Expr.Eval
import Blkit.Expr.Free
import Blkit.Expr.Patch
import Blkit.Order.Fifo

/-!
# Decision expressions

A decision expression binds each output to a program that may read the inputs and
the sibling outputs.  `siblingDeps` collects the sibling outputs of an entry from
the parsed source, `topoSortEntries` orders the entries by them, and `Evaluate`
runs the entries in that order over one typed environment, in which every output
holds its type's zero value until its own entry has run.
-/

namespace Blkit

open Fallible

/-- `compiledEntry`. -/
structure CompiledEntry where
  output : String
  program : Program
  deps : List String

/-- `siblingDeps`: the outputs among the free identifiers of the parsed source. -/
def siblingDeps (tree : Node) (outputs : List String) : List String :=
  (keepFirst (tree.freeIdents [])).filter (· ∈ outputs)

/-- The compiled source: the patched tree, run on an environment. -/
def Node.program (lib : Lib) (tree : Node) : Program := fun env =>
  (eval lib tree.patched (bindings env) none).map VmValue.asBl

/-! ## The evaluation plan -/

section Plan

variable (entries : List CompiledEntry)

/-- `dependents`: the entries that list `name`, in declaration order. -/
def dependents (name : String) : List String :=
  (entries.filter (name ∈ ·.deps)).map CompiledEntry.output

/-- `byName`. -/
def byName : String → Option CompiledEntry := writeAll CompiledEntry.output (fun e => e) entries

/-- `indeg`: how many different siblings the entry of that name lists. -/
def entryIndeg (name : String) : Int :=
  ((byName entries name).map fun e => ((keepFirst e.deps).length : Int)).getD 0

/-- `topoSortEntries`. -/
def topoSortEntries (order : List String) : Result (List CompiledEntry) :=
  match entries.find? (fun e => e.output ∈ e.deps) with
  | some e => .error (.text ("entry " ++ e.output.quote ++ " references itself"))
  | none =>
    let out := (Fifo.sort (dependents entries) (entryIndeg entries) order).filterMap
      (byName entries)
    if out.length = entries.length then .ok out
    else .error (.text "dependency cycle among entries")

end Plan

/-- The entry of one output, among all `outputs`. -/
def compileEntry (lib : Lib) (source : String → Node) (outputs : List String) (name : String) :
    CompiledEntry :=
  ⟨name, (source name).program lib, siblingDeps (source name) outputs⟩

/-- The entries, in the order in which the outputs are declared. -/
def compileEntries (lib : Lib) (source : String → Node) (outputs : List String) :
    List CompiledEntry :=
  outputs.map (compileEntry lib source outputs)

/-- A decision expression as `NewDecisionExpression` leaves it.  `source` is the
parsed tree of each entry's normalised source. -/
structure DecisionExpression where
  id : String
  name : String
  lib : Lib
  ivars : Contract
  ovars : Contract
  outputs_ne : ovars.vars ≠ []
  disjoint : ∀ v ∈ ovars.vars, v.name ∉ ivars.names
  source : String → Node
  evalPlan : List CompiledEntry
  evalPlan_eq : topoSortEntries (compileEntries lib source ovars.names) ovars.names = .ok evalPlan

namespace DecisionExpression

variable (d : DecisionExpression)

/-- The combined environment before the first entry runs: the inputs, and the zero
value of every output's type. -/
def startEnv (env : Env) : Env := fun name =>
  match env name with
  | some x => some x
  | none => (d.ovars.find name).map fun v => v.elem.zero

/-- What an entry computes: a value of the type of its field (`setBlField`). -/
def entryValue (e : CompiledEntry) (env : Env) : Result BlValue := do
  let x ← e.program.run env
  match d.ovars.find e.output with
  | some v =>
    if x.kind = v.elem then .ok x else .error (.typeError "evaluate" "output type mismatch")
  | none => .error (.typeError "evaluate" "output type mismatch")

/-- One round of the plan: run the entry and write its field. -/
def step (env : Env) (e : CompiledEntry) : Result Env := do
  let x ← d.entryValue e env
  .ok (Function.update env e.output (some x))

/-- `Evaluate` from the point where the inputs are in the environment. -/
def evaluateEnv (env : Env) : Result (Filled d.ovars) := do
  let env ← d.evalPlan.foldlM d.step (d.startEnv env)
  d.ovars.fill fun v => .ok (env v.name)

/-- `Evaluate`. -/
def evaluate (input : Filled d.ivars) : Result (Filled d.ovars) :=
  d.evaluateEnv (makeEnv d.ivars input.getValue)

variable {d}

lemma isSome_of_foldlM_step {plan : List CompiledEntry} {env env' : Env}
    (h : plan.foldlM d.step env = .ok env') (name : String) (hs : (env name).isSome) :
    (env' name).isSome := by
  induction plan generalizing env with
  | nil =>
    cases h
    exact hs
  | cons e plan ih =>
    simp only [List.foldlM_cons, step, bind_eq_ok] at h
    obtain ⟨env₁, ⟨x, -, h₁⟩, h⟩ := h
    cases h₁
    refine ih h ?_
    by_cases hn : name = e.output
    · simp [hn]
    · rwa [Function.update_of_ne hn]

/-- An expression that succeeds sets every output. -/
lemma isSome_of_evaluateEnv {env : Env} {out : Filled d.ovars}
    (h : d.evaluateEnv env = .ok out) : ∀ v ∈ d.ovars.vars, (out.val v.name).isSome := by
  intro v hv
  simp only [evaluateEnv, bind_eq_ok] at h
  obtain ⟨env', hplan, h⟩ := h
  rw [← Except.ok.inj (Contract.fill_eq_ok h v hv)]
  refine isSome_of_foldlM_step hplan v.name ?_
  rw [startEnv]
  split
  · rfl
  · rw [Contract.find_eq_some.2 ⟨hv, rfl⟩]
    rfl

end DecisionExpression

end Blkit
