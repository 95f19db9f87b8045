import Blkit.Decision.Expression
import Blkit.Decision.Table
import Blkit.Decision.Wiring

/-!
# Inputs that are not supplied

An unset input handle reads as null.  On its own, a node copies its inputs into a
typed environment struct, where a null does not fit a field of another type and
the field keeps its zero value: the number 0, the empty string.  Inside a task the
same null, of a task input that is unset or of a producer that leaves its output
unset, is written to a typed handle, which is an error.  So a node sees null for an
unset input, and behaves alike on its own and in a task, exactly when every input
left unset is declared as null.
-/

namespace Blkit

open Fallible List

/-- The variables of a contract that are chosen. -/
def Contract.filter (c : Contract) (p : DecisionVar → Bool) : Contract where
  vars := c.vars.filter p
  nodup := c.nodup.sublist (filter_sublist.map _)
  ident v hv := c.ident v (mem_of_mem_filter hv)

/-- The struct with the handles of the chosen variables. -/
def Filled.restrict {c : Contract} (s : Filled c) (p : DecisionVar → Bool) :
    Filled (c.filter p) where
  val := s.val
  typed v hv := s.typed v (mem_of_mem_filter hv)

/-- The nodes that hold decision logic of their own. -/
inductive LogicNode where
  | table (d : DecisionTable)
  | expression (d : DecisionExpression)

namespace LogicNode

/-- `GetId`. -/
def id : LogicNode → String
  | .table d => d.id
  | .expression d => d.id

/-- `inVars`. -/
def ivars : LogicNode → Contract
  | .table d => d.ivars
  | .expression d => d.ivars

/-- `outVars`. -/
def ovars : LogicNode → Contract
  | .table d => d.ovars
  | .expression d => d.ovars

/-- What the cells or entries compute from the environment they see. -/
def evaluateEnv : (N : LogicNode) → Env → Result (Filled N.ovars)
  | .table d => d.evaluateEnv
  | .expression d => d.evaluateEnv

/-- `Evaluate` of a node on its own. -/
def evaluate (N : LogicNode) (input : Filled N.ivars) : Result (Filled N.ovars) :=
  N.evaluateEnv (makeEnv N.ivars input.getValue)

lemma outputs_ne : (N : LogicNode) → N.ovars.vars ≠ []
  | .table d | .expression d => d.outputs_ne

variable {N : LogicNode}

/-! ## The node inside a task -/

/-- Where the inputs of a node come from: a producer, or the task itself. -/
structure Feeds (N : LogicNode) (κ : Type) where
  id : κ → String
  id_injective : Function.Injective id
  id_ne : ∀ k, id k ≠ "" ∧ id k ≠ N.id
  producer : DecisionVar → Option κ

namespace Feeds

variable {κ : Type} [DecidableEq κ] (F : Feeds N κ)

/-- A task around the node, with the node's own contracts, and the producers, which have
no inputs. -/
abbrev scope : Scope (Option κ) Empty where
  boundaryID := ""
  invars := N.ivars
  outvars := N.ovars
  node
    | none => ⟨N.id, N.ivars, N.ovars⟩
    | some k => ⟨F.id k, .empty, N.ivars.filter fun v => F.producer v = some k⟩
  reference := Empty.elim

/-- The handle an input is wired from. -/
def source (v : DecisionVar) : Handle (Option κ) Empty :=
  match F.producer v with
  | none => .taskIn v
  | some k => .nodeOut (some k) v

variable {v : DecisionVar}

lemma source_exists (hv : v ∈ N.ivars.vars) : (F.source v).Exists F.scope := by
  rw [source]
  split
  · exact hv
  · rename_i k hk
    exact mem_filter.2 ⟨hv, decide_eq_true hk⟩

lemma source_elem : (F.source v).elem F.scope = v.elem := by
  rw [source]
  split <;> rfl

/-- Every input of the node is wired. -/
def inEdges : List (Edge F.scope) :=
  N.ivars.vars.attach.map fun v =>
    ⟨F.source v.1, .nodeIn none v.1, F.source_exists v.2, v.2, F.source_elem⟩

/-- Every output of the node feeds the task's output of that name. -/
def outEdges : List (Edge F.scope) :=
  N.ovars.vars.attach.map fun v => ⟨.nodeOut none v.1, .taskOut v.1, v.2, v.2, rfl⟩

/-- The edges of the task. -/
def edges : List (Edge F.scope) := F.inEdges ++ F.outEdges

/-- What the nodes of the task compute: the producers give the inputs the values the node
is fed, those that are unset left unset. -/
def behaviour (input : Filled N.ivars) : Behaviour F.scope
  | none => N.evaluate
  | some _ => fun _ => .ok (input.restrict _)

end Feeds

/-- Two outcomes a caller cannot tell apart. -/
def SameOutcome {c : Contract} : Result (Filled c) → Result (Filled c) → Prop
  | .ok a, .ok b => ∀ v ∈ c.vars, a.getValue v.name = b.getValue v.name
  | .error e, .error e' => e = e'
  | _, _ => False

/-- An input that is not supplied is null: the cells see null for it, and the node has the
same outcome on its own as in every task that feeds it the same values, some from the task's
own inputs and some from producers. -/
def AbsentIsNull (N : LogicNode) (input : Filled N.ivars) : Prop :=
  (∀ v ∈ N.ivars.vars, input.val v.name = none →
    makeEnv N.ivars input.getValue v.name = some .null) ∧
  ∀ (κ : Type) [DecidableEq κ] (F : Feeds N κ) (T : DecisionTask F.scope), T.edges = F.edges →
    SameOutcome (N.evaluate input) (T.evaluate (F.behaviour input) input)

/-- Every output handle of a node that succeeds is set. -/
lemma isSome_of_evaluateEnv : {N : LogicNode} → {env : Env} → {out : Filled N.ovars} →
    N.evaluateEnv env = .ok out → ∀ v ∈ N.ovars.vars, (out.val v.name).isSome
  | .table _, _, _, h => DecisionTable.isSome_of_evaluateEnv h
  | .expression _, _, _, h => DecisionExpression.isSome_of_evaluateEnv h

/-! ## The node in its task -/

section Task

variable {κ : Type} [DecidableEq κ] {F : Feeds N κ} {T : DecisionTask F.scope}
  {input : Filled N.ivars}

lemma of_mem_edges {e : Edge F.scope} (he : e ∈ F.edges) :
    (∃ v ∈ N.ivars.vars, e.src = F.source v ∧ e.dst = .nodeIn none v) ∨
      ∃ v ∈ N.ovars.vars, e.src = .nodeOut none v ∧ e.dst = .taskOut v := by
  rcases mem_append.1 he with he | he
  all_goals obtain ⟨v, -, rfl⟩ := mem_map.1 he
  · exact .inl ⟨v.1, v.2, rfl, rfl⟩
  · exact .inr ⟨v.1, v.2, rfl, rfl⟩

lemma exists_inEdge {v : DecisionVar} (hv : v ∈ N.ivars.vars) :
    ∃ e ∈ F.edges, e.src = F.source v ∧ e.dst = .nodeIn none v :=
  ⟨_, mem_append_left _ (mem_map_of_mem (mem_attach _ ⟨v, hv⟩)), rfl, rfl⟩

lemma exists_outEdge {v : DecisionVar} (hv : v ∈ N.ovars.vars) :
    ∃ e ∈ F.edges, e.src = .nodeOut none v ∧ e.dst = .taskOut v :=
  ⟨_, mem_append_right _ (mem_map_of_mem (mem_attach _ ⟨v, hv⟩)), rfl, rfl⟩

/-- The ids of the node and its producers confuse nothing. -/
lemma unambiguous_feeds (hid : N.id ≠ "") (hT : T.edges = F.edges) : T.Unambiguous where
  distinct m _ n _ h := by
    cases m with
    | none => cases n with
      | none => rfl
      | some k => exact absurd h.symm (F.id_ne k).2
    | some k => cases n with
      | none => exact absurd h (F.id_ne k).2
      | some l => exact congrArg some (F.id_injective h)
  wiredIn n _ v hv := by
    cases n with
    | none =>
      obtain ⟨e, he, -, hdst⟩ := exists_inEdge (F := F) hv
      exact ⟨e, hT ▸ he, hdst⟩
    | some k => cases hv
  wiredOut v hv := by
    obtain ⟨e, he, -, hdst⟩ := exists_outEdge (F := F) hv
    exact ⟨e, hT ▸ he, hdst⟩
  sourceIn e he n v hdst := by
    rcases of_mem_edges (hT ▸ he) with ⟨w, -, hsrc, -⟩ | ⟨w, -, -, hdst'⟩
    · rw [hsrc, Feeds.source]
      split
      · intro m _ hm
        cases m with
        | none => exact absurd hm hid
        | some k => exact absurd hm (F.id_ne k).1
      · trivial
    · rw [hdst] at hdst'
      cases hdst'
  sourceOut e he v hdst := by
    rcases of_mem_edges (hT ▸ he) with ⟨w, -, -, hdst'⟩ | ⟨w, -, hsrc, -⟩
    · rw [hdst] at hdst'
      cases hdst'
    · rw [hsrc]
      trivial

variable {log : List (Visit (Option κ) Empty)} {v : DecisionVar} {x : BlValue}

/-- Whether it comes from the task or from a producer, the node is fed the value of the input. -/
lemma eq_of_supplies (hlog : log ⊆ (T.run (F.behaviour input) input).1) (hv : v ∈ N.ivars.vars)
    (hx : DecisionTask.Supplies (S := F.scope) input log (F.source v) x) :
    x = input.getValue v.name := by
  rw [Feeds.source] at hx
  split at hx
  · exact hx
  · rename_i k hk
    obtain ⟨vst, hvst, hnode, out, hout, hx⟩ := hx
    obtain ⟨out', ins, hout', hrun⟩ := DecisionTask.runErased_of_mem (hlog hvst) ⟨out, hout⟩
    cases hout.symm.trans hout'
    rw [hnode, runErased] at hrun
    obtain ⟨_, -, hrun⟩ := bind_eq_ok.1 hrun
    cases hrun
    have hname : v.name ∈ (N.ivars.filter fun v => F.producer v = some k).names :=
      Contract.mem_names _ (mem_filter.2 ⟨hv, decide_eq_true hk⟩)
    rw [outputToMap, if_pos hname] at hx
    exact (Option.some.inj hx).symm

/-- What the task gets from the node is what the node answers. -/
lemma exists_of_supplies (hv : v ∈ N.ovars.vars)
    (hx : DecisionTask.Supplies (S := F.scope) input (T.run (F.behaviour input) input).1
      (.nodeOut none v) x) :
    ∃ vst ∈ (T.run (F.behaviour input) input).1, vst.node = none ∧ ∃ out : Filled N.ovars,
      vst.outcome = .ok (outputToMap out) ∧ (∃ s, N.evaluate s = .ok out) ∧
        x = out.getValue v.name := by
  obtain ⟨vst, hvst, hnode, o, ho, hx⟩ := hx
  obtain ⟨o', ins, ho', hrun⟩ := DecisionTask.runErased_of_mem hvst ⟨o, ho⟩
  cases ho.symm.trans ho'
  rw [hnode, runErased] at hrun
  obtain ⟨s, -, hrun⟩ := bind_eq_ok.1 hrun
  obtain ⟨out, hout, hrun⟩ := bind_eq_ok.1 hrun
  cases hrun
  rw [outputToMap, if_pos (Contract.mem_names _ hv)] at hx
  exact ⟨vst, hvst, hnode, out, ho, ⟨s, hout⟩, (Option.some.inj hx).symm⟩

/-- If every unset input is declared as null, no null is assigned to another type. -/
lemma supplied_feeds (hT : T.edges = F.edges)
    (h : ∀ v ∈ N.ivars.vars, input.val v.name = none → v.elem = .null) :
    T.Supplied (F.behaviour input) input where
  inputs vst hvst e he v hdst x hx := by
    rcases of_mem_edges (hT ▸ he) with ⟨w, hw, hsrc, -⟩ | ⟨w, -, -, hdst'⟩
    · rw [hsrc] at hx ⊢
      rw [eq_of_supplies (List.Subset.refl _) hw hx, F.source_elem, Filled.getValue]
      cases hset : input.val w.name with
      | none => exact (h w hw hset).symm
      | some y => exact input.typed w hw y hset
    · rw [hdst] at hdst'
      cases hdst'
  outputs _ e he v hdst x hx := by
    rcases of_mem_edges (hT ▸ he) with ⟨w, -, -, hdst'⟩ | ⟨w, hw, hsrc, -⟩
    · rw [hdst] at hdst'
      cases hdst'
    · rw [hsrc] at hx ⊢
      obtain ⟨-, -, -, out, -, ⟨s, hout⟩, rfl⟩ := exists_of_supplies hw hx
      obtain ⟨y, hy⟩ := Option.isSome_iff_exists.1 (isSome_of_evaluateEnv hout w hw)
      rw [Filled.getValue, hy]
      exact out.typed w hw y hy

/-- In a faithful run the node answers as it does on its own. -/
lemma evaluate_of_faithful (hT : T.edges = F.edges) (hF : T.Faithful (F.behaviour input) input)
    {ins : String → Option (Cell (Option κ) Empty)} {outcome : Result (String → Option BlValue)}
    (hvst : ⟨none, ins, outcome⟩ ∈ (T.run (F.behaviour input) input).1) :
    ∃ s : Filled N.ivars, DecisionTask.received F.scope ⟨none, ins, outcome⟩ = .ok s ∧
      N.evaluate s = N.evaluate input ∧
      outcome = (N.evaluate input >>= fun out => .ok (outputToMap out)) := by
  obtain ⟨pre, post, h⟩ := append_of_mem hvst
  obtain ⟨s, hs, hreceives⟩ := hF.inputs pre _ post h
  have heval : N.evaluate s = N.evaluate input := by
    rw [evaluate, evaluate, makeEnv_congr fun v hv => ?_]
    obtain ⟨e, he, hdst, x, -, hx, hsup⟩ := hreceives v hv
    rcases of_mem_edges (hT ▸ he) with ⟨w, hw, hsrc, hdst'⟩ | ⟨w, -, -, hdst'⟩
    · cases hdst.symm.trans hdst'
      rw [hsrc] at hsup
      rw [Filled.getValue, hx, eq_of_supplies (h ▸ subset_append_left _ _) hv hsup]
      rfl
    · cases hdst.symm.trans hdst'
  exact ⟨s, hs, heval, heval ▸ DecisionTask.outcome_eq h hs⟩

lemma sameOutcome_feeds (hT : T.edges = F.edges) (hF : T.Faithful (F.behaviour input) input) :
    SameOutcome (N.evaluate input) (T.evaluate (F.behaviour input) input) := by
  rcases hF.result with ⟨⟨n, ins, o⟩, hvst, s, err, hs, hB, heval⟩ | ⟨-, env, out, -, heval, hout⟩
  · cases n with
    | some k => cases hB
    | none =>
      obtain ⟨s', hs', hN, -⟩ := evaluate_of_faithful hT hF hvst
      cases hs.symm.trans hs'
      rw [heval, ← hN, show N.evaluate s = .error err from hB]
      exact rfl
  · -- each output of the task is one of the node's
    have hanswer : ∀ v ∈ N.ovars.vars, ∃ out', N.evaluate input = .ok out' ∧
        out'.getValue v.name = out.getValue v.name := by
      intro v hv
      obtain ⟨e, he, hdst, x, -, hx, hsup⟩ := hout v hv
      rcases of_mem_edges (hT ▸ he) with ⟨w, -, -, hdst'⟩ | ⟨w, hw, hsrc, hdst'⟩
      · cases hdst.symm.trans hdst'
      · cases hdst.symm.trans hdst'
        rw [hsrc] at hsup
        obtain ⟨⟨n, ins, o⟩, hvst, rfl, o', ho, hox⟩ := hsup
        obtain ⟨-, -, -, houtcome⟩ := evaluate_of_faithful hT hF hvst
        obtain ⟨out', hN, hmap⟩ := bind_eq_ok.1 (houtcome.symm.trans ho)
        cases hmap
        rw [outputToMap, if_pos (Contract.mem_names _ hv)] at hox
        refine ⟨out', hN, ?_⟩
        rw [Option.some.inj hox, Filled.getValue, hx]
        rfl
    obtain ⟨v, hv⟩ := exists_mem_of_ne_nil _ N.outputs_ne
    obtain ⟨out', hN, -⟩ := hanswer v hv
    rw [hN, heval]
    intro w hw
    obtain ⟨out'', hN', hw'⟩ := hanswer w hw
    cases hN.symm.trans hN'
    exact hw'

end Task

/-- An unset input is null, for the node itself and for the comparison with a task, exactly when
it is declared as null. -/
theorem absentIsNull_iff (N : LogicNode) (hid : N.id ≠ "") (input : Filled N.ivars) :
    N.AbsentIsNull input ↔ ∀ v ∈ N.ivars.vars, input.val v.name = none → v.elem = .null := by
  constructor
  · intro h v hv hunset
    have hnull := h.1 v hv hunset
    rw [makeEnv_of_mem _ hv, Option.some.injEq] at hnull
    split at hnull
    · rename_i hk
      rw [← hk, hnull]
      rfl
    · rwa [← BlValue.kind_eq_null_iff, Kind.kind_zero] at hnull
  · intro h
    refine ⟨fun v hv hunset => ?_, fun κ _ F T hT => sameOutcome_feeds hT ?_⟩
    · simp [makeEnv_of_mem _ hv, Filled.getValue, hunset, h v hv hunset, BlValue.kind]
    · exact (unambiguous_feeds hid hT).faithful (supplied_feeds hT h)

/-- The one-rule table `age < 18` as a node. -/
def minorNode : LogicNode := .table DecisionTable.minorTable

/-- The same rule in a table with a second input, which is declared as null. -/
def noteNode : LogicNode := .table
  { DecisionTable.minorTable with
    ivars := ⟨[⟨"age", .number⟩, ⟨"note", .null⟩], by decide, by decide⟩
    compiled := DecisionTable.minorTable.compiled.map fun r => ⟨r.id, r.inputs ++ [none], r.outputs⟩
    wellKeyed := by
      intro r hr
      obtain ⟨r', hr', rfl⟩ := mem_map.1 hr
      exact DecisionTable.minorTable.wellKeyed r' hr' }

/-- All inputs come from the task. -/
def taskFeeds : Feeds minorNode Unit where
  id _ := "producer"
  id_injective _ _ _ := rfl
  id_ne _ := by decide
  producer _ := none

/-- The age comes from the task, the note from a producer. -/
def noteFeeds : Feeds noteNode Unit where
  id _ := "producer"
  id_injective _ _ _ := rfl
  id_ne _ := by decide
  producer v := if v.name = "note" then some () else none

/-- The task around the table. -/
def minorTask : DecisionTask taskFeeds.scope where
  edges := taskFeeds.edges
  ids := ["band"]
  ids_nodup := by decide
  mem_ids id := by
    rw [nodeMap, writeAll_apply, Option.isSome_map, lastAt_isSome,
      show endpoints taskFeeds.scope taskFeeds.edges = [none, none] from rfl]
    simp [minorNode, LogicNode.id, DecisionTable.minorTable, eq_comm]
  accepted := by rfl

/-- The task around the table and the producer. -/
def noteTask : DecisionTask noteFeeds.scope where
  edges := noteFeeds.edges
  ids := ["band", "producer"]
  ids_nodup := by decide
  mem_ids id := by
    rw [nodeMap, writeAll_apply, Option.isSome_map, lastAt_isSome,
      show endpoints noteFeeds.scope noteFeeds.edges = [none, some (), none, none] from rfl]
    simp [noteNode, noteFeeds, LogicNode.id, DecisionTable.minorTable, eq_comm]
    tauto
  accepted := by rfl

/-- At age 10, with the note left unset. -/
def noteInput : Filled noteNode.ivars where
  val name := if name = "age" then some (.number 10) else none
  typed := by simp [noteNode, ivars, BlValue.kind]

/-- The note is null for the table and for the task, and both answer `"minor"`. -/
theorem absentIsNull_noteNode : noteInput.val "note" = none ∧ noteNode.AbsentIsNull noteInput ∧
    (noteTask.evaluate (noteFeeds.behaviour noteInput) noteInput).map
      (fun out => out.getValue "band") =
      .ok (.string "minor") := by
  refine ⟨rfl, (absentIsNull_iff noteNode (by decide) noteInput).2 ?_, by rfl⟩
  simp [noteNode, ivars, noteInput]

/-- With the age left unset, the table on its own reads the number 0 and answers
`"minor"`, and in a task it fails. -/
theorem not_absentIsNull_minorNode :
    (minorNode.evaluate (Filled.empty _)).map (fun out => out.getValue "band") =
        .ok (.string "minor") ∧
      minorTask.evaluate (taskFeeds.behaviour (Filled.empty _)) (Filled.empty _) =
        .error (.typeError "evaluate" "field \"\": cannot assign null to number") ∧
      ¬ minorNode.AbsentIsNull (Filled.empty _) := by
  refine ⟨by rfl, by rfl, fun h => ?_⟩
  have := h.1 ⟨"age", .number⟩ (by simp [minorNode, ivars, DecisionTable.minorTable]) rfl
  simp [minorNode, ivars, DecisionTable.minorTable, makeEnv, Contract.find, Filled.getValue,
    Filled.empty, BlValue.kind, Kind.zero] at this

end LogicNode

end Blkit
