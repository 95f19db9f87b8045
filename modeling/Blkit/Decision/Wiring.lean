import Blkit.Decision.Task

/-!
# What a task's handles receive

A run of a task is *faithful* when every node the edges mention is evaluated
exactly once, and every node input and every task output receives the value of
the handle its edge names: a task input, a reference value, or an output of that
very node.  `Graph` accepts task graphs whose runs are not faithful, because it
identifies nodes and handles by id alone and does not ask which side of a node a
handle is on.  And a run stops when a null, the value of a handle that is unset,
is to be assigned to a handle of another type.  `faithful_iff` says exactly which
accepted graphs, and which of their runs, are faithful.
-/

namespace Blkit

open Fallible List Visit

variable {ν ρ : Type} {S : Scope ν ρ}

/-! ## The map of nodes and the wiring -/

section Graph

variable {edges : List (Edge S)} {id : String} {n : ν}

lemma nodeMap_eq_some (h : nodeMap S edges id = some n) :
    n ∈ endpoints S edges ∧ (S.node n).id = id := by
  rw [nodeMap, writeAll_apply, Option.map_id'] at h
  exact lastAt_eq_some h

lemma nodeMap_isSome_of_mem (h : n ∈ endpoints S edges) :
    (nodeMap S edges (S.node n).id).isSome := by
  rw [nodeMap, writeAll_apply, Option.isSome_map, lastAt_isSome]
  exact ⟨n, h, rfl⟩

/-- The nodes that the map holds for some ids. -/
lemma map_id_filterMap {l : List String} (h : ∀ id ∈ l, (nodeMap S edges id).isSome) :
    (l.filterMap (nodeMap S edges)).map (fun n => (S.node n).id) = l := by
  induction l with
  | nil => rfl
  | cons id l ih =>
    obtain ⟨n, hn⟩ := Option.isSome_iff_exists.1 (h id (by simp))
    rw [filterMap_cons_some hn, map_cons, (nodeMap_eq_some hn).2,
      ih fun id' h' => h id' (by simp [h'])]

variable {e : Edge S}

lemma mem_endpoints_src (he : e ∈ edges) (h : e.src.node? = some n) : n ∈ endpoints S edges :=
  mem_flatMap.2 ⟨e, he, by simp [h]⟩

lemma mem_endpoints_dst (he : e ∈ edges) (h : e.dst.node? = some n) : n ∈ endpoints S edges :=
  mem_flatMap.2 ⟨e, he, by simp [h]⟩

/-- The reference value stored under an id is the one met last. -/
lemma refVals_referenceField (id : String) : refVals S edges (id, referenceField) =
      (lastAt (fun r => (S.reference r).id) (references S edges) id).map
        fun r => ⟨.reference r, (S.reference r).value⟩ := by
  rw [refVals, writeAll_apply, lastAt, lastAt]
  simp

lemma wiredTwice_eq_nil {es : List (Edge S)} {seen : List HandleKey} : wiredTwice S es seen = [] ↔
      (es.map fun e => e.dst.key S).Nodup ∧ ∀ e ∈ es, e.dst.key S ∉ seen := by
  induction es generalizing seen with
  | nil => simp [wiredTwice]
  | cons e es ih =>
    rw [wiredTwice, append_eq_nil_iff, ih, map_cons, nodup_cons, mem_map]
    by_cases he : e.dst.key S ∈ seen
    · simp [he]
    · constructor
      · rintro ⟨-, hnd, hseen⟩
        refine ⟨⟨?_, hnd⟩, ?_⟩
        · rintro ⟨e', he', hkey⟩
          exact hseen e' he' (by simp [hkey])
        · rintro e' (_ | ⟨_, he'⟩)
          · exact he
          · exact fun hmem => hseen e' he' (mem_cons_of_mem _ hmem)
      · rintro ⟨⟨hkey, hnd⟩, hseen⟩
        refine ⟨by simp [he], hnd, fun e' he' hmem => ?_⟩
        rcases mem_cons.1 hmem with h | h
        · exact hkey ⟨e', he', h⟩
        · exact hseen e' (mem_cons_of_mem _ he') h

variable {a b : String}

lemma mem_links : (a, b) ∈ links S edges ↔ ∃ e ∈ edges, ∃ m n,
    e.src.node? = some m ∧ e.dst.node? = some n ∧ (S.node m).id = a ∧ (S.node n).id = b := by
  rw [links, mem_keepFirst, mem_filterMap]
  refine exists_congr fun e => and_congr_right fun _ => ?_
  cases hm : e.src.node? <;> cases hn : e.dst.node? <;> simp [Edge.link, hm, hn]

lemma nodup_deps : (((links S edges).filter (·.2 = id)).map (·.1)).Nodup := by
  refine List.Nodup.map_on ?_ ((keepFirst_nodup _).filter _)
  rintro ⟨a, b⟩ hab ⟨a', b'⟩ hab' rfl
  simp only [mem_filter, decide_eq_true_eq] at hab hab'
  rw [hab.2, hab'.2]

lemma nodup_adj : (adj S edges id).Nodup := by
  refine List.Nodup.map_on ?_ ((keepFirst_nodup _).filter _)
  rintro ⟨a, b⟩ hab ⟨a', b'⟩ hab' rfl
  simp only [mem_filter, decide_eq_true_eq] at hab hab'
  rw [hab.2, hab'.2]

lemma mem_deps : a ∈ ((links S edges).filter (·.2 = b)).map (·.1) ↔ (a, b) ∈ links S edges := by
  simp

variable {ids : List String}

lemma mem_ids_of_link (hids : ∀ id, id ∈ ids ↔ (nodeMap S edges id).isSome)
    (h : (a, b) ∈ links S edges) : a ∈ ids ∧ b ∈ ids := by
  obtain ⟨e, he, m, n, hm, hn, rfl, rfl⟩ := mem_links.1 h
  exact ⟨(hids _).2 (nodeMap_isSome_of_mem (mem_endpoints_src he hm)),
    (hids _).2 (nodeMap_isSome_of_mem (mem_endpoints_dst he hn))⟩

lemma mem_adj_iff (hids : ∀ id, id ∈ ids ↔ (nodeMap S edges id).isSome) :
    b ∈ adj S edges a ↔ b ∈ ids ∧ a ∈ ((links S edges).filter (·.2 = b)).map (·.1) := by
  have hadj : b ∈ adj S edges a ↔ (a, b) ∈ links S edges := by simp [adj]
  rw [hadj, mem_deps]
  exact ⟨fun h => ⟨(mem_ids_of_link hids h).2, h⟩, fun h => h.2⟩

/-- The sort of the nodes, by id. -/
def nodePlan (hnd : ids.Nodup) (hids : ∀ id, id ∈ ids ↔ (nodeMap S edges id).isSome) :
    Fifo.Plan String where
  keys := ids
  deps id := ((links S edges).filter (·.2 = id)).map (·.1)
  next := adj S edges
  indeg := indeg S edges
  keys_nodup := hnd
  deps_nodup _ _ := nodup_deps
  next_nodup _ := nodup_adj
  mem_next _ _ := mem_adj_iff hids
  indeg_eq id _ := by simp [indeg]

end Graph

namespace DecisionTask

variable (T : DecisionTask S)

/-- No destination is wired twice. -/
lemma dst_nodup : (T.edges.map fun e => e.dst.key S).Nodup := by
  have h := graph_eq_ok.1 T.accepted
  simp only [graphProblems, append_eq_nil_iff] at h
  exact (wiredTwice_eq_nil.1 h.1.1.1.1).1

/-- Every node is in the evaluation order. -/
lemma length_topoSortNodes : (topoSortNodes S T.edges T.ids).length = T.ids.length := by
  have h := graph_eq_ok.1 T.accepted
  simp only [graphProblems, append_eq_nil_iff] at h
  by_contra hne
  simp [hne] at h

variable {T} {e : Edge S}

lemma edge_eq_of_dst {e' : Edge S} (he : e ∈ T.edges) (he' : e' ∈ T.edges)
    (h : e.dst = e'.dst) : e = e' :=
  inj_on_of_nodup_map T.dst_nodup he he' (by rw [h])

lemma source_dst (he : e ∈ T.edges) : T.source (e.dst.key S) = e.src.key S := by
  rw [source, dstSrc, writeAll_apply, lastAt_self T.dst_nodup he]
  rfl

/-! ## The evaluation order -/

variable (T)

/-- The sort of the task's nodes. -/
def plan : Fifo.Plan String := nodePlan T.ids_nodup T.mem_ids

lemma sorted_plan : T.plan.sorted = topoSortNodes S T.edges T.ids := rfl

/-- The nodes in evaluation order are the sorted ids, each with the node the map
holds for it. -/
lemma map_id_order : T.order.map (fun n => (S.node n).id) = topoSortNodes S T.edges T.ids := by
  refine map_id_filterMap fun id hid => (T.mem_ids id).1 ?_
  rw [← T.sorted_plan, Fifo.Plan.mem_sorted] at hid
  exact hid.1

lemma order_ids_nodup : (T.order.map fun n => (S.node n).id).Nodup := by
  rw [map_id_order, ← sorted_plan]
  exact T.plan.sorted_nodup

lemma order_nodup : T.order.Nodup := T.order_ids_nodup.of_map _

variable {T} {n : ν}

lemma mem_order : n ∈ T.order ↔ nodeMap S T.edges (S.node n).id = some n := by
  rw [order, mem_filterMap]
  constructor
  · rintro ⟨id, -, h⟩
    rwa [(nodeMap_eq_some h).2]
  · intro h
    refine ⟨_, ?_, h⟩
    have hperm := T.plan.perm_keys (by rw [sorted_plan, length_topoSortNodes]; rfl)
    rw [← sorted_plan, hperm.mem_iff]
    exact (T.mem_ids _).2 (by simp [h])

variable {m : ν}

/-- A node is evaluated after the nodes its inputs come from. -/
lemma before_of_edge (he : e ∈ T.edges) (hm : e.src.node? = some m)
    (hn : e.dst.node? = some n) (hmo : m ∈ T.order) (hno : n ∈ T.order) :
    Before T.order m n := by
  have hids : Before (T.order.map fun n => (S.node n).id) (S.node m).id (S.node n).id := by
    rw [map_id_order, ← sorted_plan]
    refine Fifo.Plan.deps_before ?_ ?_
    · rw [sorted_plan, ← map_id_order]
      exact mem_map_of_mem hno
    · exact mem_deps.2 (mem_links.2 ⟨e, he, m, n, hm, hn, rfl, rfl⟩)
  exact hids.of_map T.order_ids_nodup hmo hno

/-! ## The evaluation map along a run -/

/-- The evaluation map after one more evaluation. -/
def store (S : Scope ν ρ) (env : Store ν ρ) (vst : Visit ν ρ) : Store ν ρ :=
  match vst.outcome with
  | .ok out => writeOutputs S vst.node out env
  | .error _ => env

/-- The evaluation map after some evaluations. -/
def after (S : Scope ν ρ) (env : Store ν ρ) (log : List (Visit ν ρ)) : Store ν ρ :=
  log.foldl (store S) env

/-- The evaluations of `log` all succeeded. -/
def AllOk (log : List (Visit ν ρ)) : Prop := ∀ vst ∈ log, ∃ out, vst.outcome = .ok out

section Visits

variable {B : Behaviour S} {ns : List ν} {env : Store ν ρ}

/-- The evaluations follow the order of the nodes. -/
lemma visits_nodes : (T.visits B ns env).1.map node <+: ns := by
  induction ns generalizing env with
  | nil => simp [visits]
  | cons n ns ih =>
    rw [visits]
    split
    · exact prefix_append [n] ns
    · exact cons_prefix_cons.2 ⟨rfl, ih⟩

/-- What one evaluation is made on: the map left by the evaluations before it,
which all succeeded. -/
lemma visits_split {pre post : List (Visit ν ρ)} {vst : Visit ν ρ}
    (h : (T.visits B ns env).1 = pre ++ vst :: post) :
    vst.inputs = T.inMap (after S env pre) vst.node ∧
      vst.outcome = runErased B vst.node (fun name => (vst.inputs name).map Cell.value) ∧
      AllOk pre := by
  induction ns generalizing env pre with
  | nil => simp [visits] at h
  | cons n ns ih =>
    rw [visits] at h
    split at h
    case h_1 e he =>
      cases pre with
      | nil =>
        obtain ⟨rfl, -⟩ := cons.inj h
        exact ⟨rfl, he.symm, by simp [AllOk]⟩
      | cons p pre => simp at h
    case h_2 out hout =>
      cases pre with
      | nil =>
        obtain ⟨rfl, -⟩ := cons.inj h
        exact ⟨rfl, hout.symm, by simp [AllOk]⟩
      | cons p pre =>
        obtain ⟨rfl, hrest⟩ := cons.inj h
        obtain ⟨h₁, h₂, h₃⟩ := ih hrest
        refine ⟨h₁, h₂, ?_⟩
        rintro v (_ | ⟨_, hv⟩)
        · exact ⟨out, rfl⟩
        · exact h₃ v hv

/-- A run without a failure evaluates every node. -/
lemma visits_ok {env' : Store ν ρ} (h : (T.visits B ns env).2 = .ok env') :
    (T.visits B ns env).1.map node = ns ∧ AllOk (T.visits B ns env).1 ∧
      env' = after S env (T.visits B ns env).1 := by
  induction ns generalizing env with
  | nil =>
    cases h
    exact ⟨rfl, by simp [visits, AllOk], rfl⟩
  | cons n ns ih =>
    rw [visits] at h ⊢
    split at h
    · cases h
    · rename_i out hout
      obtain ⟨h₁, h₂, h₃⟩ := ih h
      refine ⟨by simp [h₁], ?_, h₃⟩
      rintro v (_ | ⟨_, hv⟩)
      · exact ⟨out, rfl⟩
      · exact h₂ v hv

lemma visits_error {err : GoError} (h : (T.visits B ns env).2 = .error err) :
    ∃ vst ∈ (T.visits B ns env).1, vst.outcome = .error err := by
  induction ns generalizing env with
  | nil => cases h
  | cons n ns ih =>
    rw [visits] at h ⊢
    split at h
    · cases h
      exact ⟨_, mem_cons_self, rfl⟩
    · obtain ⟨vst, hv, hvst⟩ := ih h
      exact ⟨vst, mem_cons_of_mem _ hv, hvst⟩

end Visits

variable {log : List (Visit ν ρ)}

/-- A key no evaluation writes keeps its value. -/
lemma after_of_not_mem {env : Store ν ρ} {k : HandleKey}
    (h : ∀ vst ∈ log, (S.node vst.node).id = k.1 → k.2 ∉ (S.node vst.node).outVars.names) :
    after S env log k = env k := by
  induction log generalizing env with
  | nil => rfl
  | cons vst log ih =>
    refine (ih fun v hv => h v (by simp [hv])).trans ?_
    cases hout : vst.outcome with
    | error e => simp [store, hout]
    | ok out =>
      by_cases hk : k.1 = (S.node vst.node).id
      · have hnone := Contract.find_eq_none.2 (h vst (by simp) hk.symm)
        simp [store, hout, writeOutputs, hnone]
      · simp [store, hout, writeOutputs, hk]

variable {out : String → Option BlValue} {w : DecisionVar}

/-- An evaluated node's output is in the map, under the node's own handle. -/
lemma after_of_mem (env : Store ν ρ)
    (hlog : (log.map fun vst => (S.node vst.node).id).Nodup) {vst : Visit ν ρ} (hv : vst ∈ log)
    (hout : vst.outcome = .ok out)
    (hw : w ∈ (S.node vst.node).outVars.vars) :
    after S env log ((S.node vst.node).id, w.name) =
      some ⟨.nodeOut vst.node w, (out w.name).getD .null⟩ := by
  obtain ⟨pre, post, rfl⟩ := append_of_mem hv
  rw [map_append, map_cons, nodup_append, nodup_cons] at hlog
  -- No later node has the same id, so the last write is this node's.
  have hpost : ∀ v ∈ post, (S.node v.node).id = (S.node vst.node).id →
      w.name ∉ (S.node v.node).outVars.names := fun v hv' hid =>
    absurd (mem_map.2 ⟨v, hv', hid⟩) hlog.2.1.1
  rw [after, foldl_append, foldl_cons]
  refine (after_of_not_mem hpost).trans ?_
  simp [store, hout, writeOutputs, Contract.find_eq_some.2 ⟨hw, rfl⟩]

lemma start_taskIn (input : Filled S.invars) {v : DecisionVar} (hv : v ∈ S.invars.vars) :
    T.start input (S.boundaryID, v.name) = some ⟨.taskIn v, input.getValue v.name⟩ := by
  simp [start, Contract.find_eq_some.2 ⟨hv, rfl⟩]

/-- No contract has a variable of the name reference values are stored under. -/
lemma referenceField_not_mem (c : Contract) : referenceField ∉ c.names := by
  intro h
  obtain ⟨v, hv, hname⟩ := mem_map.1 h
  have := c.ident v hv
  rw [hname] at this
  exact absurd this (by decide)

lemma after_reference (input : Filled S.invars) (log : List (Visit ν ρ)) (id : String) :
    after S (T.start input) log (id, referenceField) = refVals S T.edges (id, referenceField) := by
  rw [after_of_not_mem fun vst _ _ => referenceField_not_mem _]
  simp [start, Contract.find_eq_none.2 (referenceField_not_mem S.invars)]

/-! ## Faithful runs -/

/-- The handle has this value: it is a task input, a reference value, or an output
of a node that has been evaluated.  An input of a node or an output of the task is
never a source. -/
def Supplies (input : Filled S.invars) (log : List (Visit ν ρ)) : Handle ν ρ → BlValue → Prop
  | .taskIn v, x => x = input.getValue v.name
  | .reference r, x => x = (S.reference r).value
  | .nodeOut m w, x =>
    ∃ vst ∈ log, vst.node = m ∧ ∃ out, vst.outcome = .ok out ∧ out w.name = some x
  | _, _ => False

/-- An edge leads to the destination, what arrived there was written by the edge's
source and is the source's value, and the destination's handle holds it. -/
def Receives (T : DecisionTask S) (input : Filled S.invars) (log : List (Visit ν ρ))
    (dst : Handle ν ρ) (arrived : Option (Cell ν ρ)) (held : Option BlValue) : Prop :=
  ∃ e ∈ T.edges, e.dst = dst ∧
    ∃ x, arrived = some ⟨e.src, x⟩ ∧ held = some x ∧ Supplies input log e.src x

/-- The struct a node's `Evaluate` is called with, unless a value does not fit its handle. -/
def received (S : Scope ν ρ) (vst : Visit ν ρ) : Result (Filled (S.node vst.node).inVars) :=
  inputFromMap (S.node vst.node).inVars fun name => (vst.inputs name).map Cell.value

/-- What a run has to do: evaluate no node twice and give every node it evaluates what
its edges name; and return the error of a node that fails, or evaluate every node and
return what the edges of the task outputs name. -/
structure Faithful (T : DecisionTask S) (B : Behaviour S) (input : Filled S.invars) : Prop where
  once : ((T.run B input).1.map node).Nodup
  inputs : ∀ pre vst post, (T.run B input).1 = pre ++ vst :: post →
    ∃ s, received S vst = .ok s ∧ ∀ v ∈ (S.node vst.node).inVars.vars,
      T.Receives input pre (.nodeIn vst.node v) (vst.inputs v.name) (s.val v.name)
  result : (∃ vst ∈ (T.run B input).1, ∃ s err, received S vst = .ok s ∧
      B vst.node s = .error err ∧ T.evaluate B input = .error err) ∨
    (∀ n ∈ endpoints S T.edges, n ∈ (T.run B input).1.map node) ∧
      ∃ env out, (T.run B input).2 = .ok env ∧ T.evaluate B input = .ok out ∧
        ∀ v ∈ S.outvars.vars,
          T.Receives input (T.run B input).1 (.taskOut v) (T.outCell env v) (out.val v.name)

/-- The value of the handle is of the handle's type: it is set, or its type is that of null. -/
def HoldsValue (input : Filled S.invars) (log : List (Visit ν ρ)) (h : Handle ν ρ) : Prop :=
  ∀ x, Supplies input log h x → x.kind = h.elem S

/-- No null has to be assigned to a handle of another type: the sources of the inputs
of every node the run comes to have a value, and, if no node fails, those of the task
outputs have one. -/
structure Supplied (T : DecisionTask S) (B : Behaviour S) (input : Filled S.invars) : Prop where
  inputs : ∀ vst ∈ (T.run B input).1, ∀ e ∈ T.edges, ∀ v, e.dst = .nodeIn vst.node v →
    HoldsValue input (T.run B input).1 e.src
  outputs : AllOk (T.run B input).1 → ∀ e ∈ T.edges, ∀ v, e.dst = .taskOut v →
    HoldsValue input (T.run B input).1 e.src

/-- A source can be read under its key when it is a node's output; or the last
reference value wired under its id; or a task input that no node evaluated
`earlier`, having the task's own id, has overwritten with an output of that name. -/
def Readable (T : DecisionTask S) (earlier : ν → Prop) : Handle ν ρ → Prop
  | .nodeOut _ _ => True
  | .reference r => lastAt (fun r => (S.reference r).id) (references S T.edges)
      (S.reference r).id = some r
  | .taskIn v => ∀ m, earlier m → (S.node m).id = S.boundaryID → v.name ∉ (S.node m).outVars.names
  | _ => False

/-- The graphs on which ids confuse nothing: the nodes have distinct ids, every
node input and every task output is itself the destination of an edge, and the
source of that edge can be read. -/
structure Unambiguous (T : DecisionTask S) : Prop where
  distinct : ∀ m ∈ endpoints S T.edges, ∀ n ∈ endpoints S T.edges,
    (S.node m).id = (S.node n).id → m = n
  wiredIn : ∀ n ∈ endpoints S T.edges, ∀ v ∈ (S.node n).inVars.vars,
    ∃ e ∈ T.edges, e.dst = .nodeIn n v
  wiredOut : ∀ v ∈ S.outvars.vars, ∃ e ∈ T.edges, e.dst = .taskOut v
  sourceIn : ∀ e ∈ T.edges, ∀ n v, e.dst = .nodeIn n v → T.Readable (Before T.order · n) e.src
  sourceOut : ∀ e ∈ T.edges, ∀ v, e.dst = .taskOut v → T.Readable (· ∈ T.order) e.src

section Run

variable {B : Behaviour S} {input : Filled S.invars} {log : List (Visit ν ρ)}

/-- The ids of the nodes evaluated before a point of the run are distinct. -/
lemma ids_nodup_of_initial (h : log.map node <+: T.order) :
    (log.map fun vst => (S.node vst.node).id).Nodup := by
  have := T.order_ids_nodup.sublist (h.sublist.map fun n => (S.node n).id)
  rwa [map_map] at this

variable {pre post : List (Visit ν ρ)}

lemma run_initial (h : (T.run B input).1 = pre ++ post) : pre.map node <+: T.order := by
  have : (T.visits B T.order (T.start input)).1.map node <+: T.order := T.visits_nodes
  rw [← run, h, map_append] at this
  exact (prefix_append _ _).trans this

variable {vst : Visit ν ρ}

/-- The nodes evaluated before a node are those that come before it in the order. -/
lemma before_iff_mem_pre (h : (T.run B input).1 = pre ++ vst :: post) {m : ν} :
    Before T.order m vst.node ↔ m ∈ pre.map node := by
  have hpre : (pre ++ [vst]).map node <+: T.order :=
    run_initial (show _ = (pre ++ [vst]) ++ post by simpa using h)
  obtain ⟨rest, hrest⟩ := hpre
  have hsplit : T.order = pre.map node ++ vst.node :: rest := by simpa using hrest.symm
  exact ⟨fun hb => hb.mem_of_split T.order_nodup hsplit, fun hm => .of_split hsplit hm⟩

variable {h : Handle ν ρ}

/-- A readable source is found under its key, once its node has been evaluated. -/
lemma after_of_readable (input : Filled S.invars) (hlog : log.map node <+: T.order)
    (hout : ∀ vst ∈ log, ∃ out ins, vst.outcome = .ok out ∧ runErased B vst.node ins = .ok out)
    (hex : h.Exists S) (hnode : ∀ m w, h = .nodeOut m w → m ∈ log.map node)
    (hr : T.Readable (· ∈ log.map node) h) :
    ∃ x, after S (T.start input) log (h.key S) = some ⟨h, x⟩ ∧ Supplies input log h x := by
  cases h with
  | taskIn v =>
    refine ⟨_, ?_, rfl⟩
    rw [← start_taskIn input hex]
    exact after_of_not_mem fun vst hv hid => hr vst.node (mem_map_of_mem hv) hid
  | reference r =>
    refine ⟨_, ?_, rfl⟩
    rw [Handle.key, after_reference, refVals_referenceField, hr]
    rfl
  | nodeOut m w =>
    obtain ⟨vst, hv, rfl⟩ := mem_map.1 (hnode m w rfl)
    obtain ⟨out, ins, ho, hrun⟩ := hout vst hv
    obtain ⟨x, hx⟩ : ∃ x, out w.name = some x := by
      simp only [runErased, bind_eq_ok] at hrun
      obtain ⟨_, -, s, -, hs⟩ := hrun
      cases hs
      exact ⟨s.getValue w.name, by simp [outputToMap, Contract.mem_names _ hex]⟩
    refine ⟨x, ?_, vst, hv, rfl, out, ho, hx⟩
    rw [Handle.key, after_of_mem _ (ids_nodup_of_initial hlog) hv ho hex, hx]
    rfl
  | taskOut _ | nodeIn _ _ | bare _ => exact hr.elim

/-- An evaluation of the run that succeeded is the node's answer to its inputs. -/
lemma runErased_of_mem (hv : vst ∈ (T.run B input).1) (hok : ∃ out, vst.outcome = .ok out) :
    ∃ out ins, vst.outcome = .ok out ∧ runErased B vst.node ins = .ok out := by
  obtain ⟨pre, post, h⟩ := append_of_mem hv
  obtain ⟨out, ho⟩ := hok
  exact ⟨out, _, ho, (visits_split h).2.1 ▸ ho⟩

lemma Unambiguous.mem_order (hT : T.Unambiguous) {n : ν} (hn : n ∈ endpoints S T.edges) :
    n ∈ T.order := by
  rw [DecisionTask.mem_order]
  obtain ⟨m, hm⟩ := Option.isSome_iff_exists.1 (nodeMap_isSome_of_mem hn)
  obtain ⟨hm', hid⟩ := nodeMap_eq_some hm
  rw [hm, hT.distinct m hm' n hn hid]

variable {e : Edge S} {v : DecisionVar}

/-- What arrives at an input is looked up under the key of its edge's source. -/
lemma inputs_eq
    (h : (T.run B input).1 = pre ++ vst :: post) (he : e ∈ T.edges)
    (hdst : e.dst = .nodeIn vst.node v) :
    vst.inputs v.name = after S (T.start input) pre (e.src.key S) := by
  have hv : (Handle.nodeIn vst.node v).Exists S := hdst ▸ e.dst_exists
  have hkey : e.dst.key S = ((S.node vst.node).id, v.name) := by rw [hdst]; rfl
  rw [(visits_split h).1, inMap, if_pos ((S.node vst.node).inVars.mem_names hv), ← hkey,
    source_dst he]

lemma outCell_eq {env : Store ν ρ} (h : (T.run B input).2 = .ok env)
    (he : e ∈ T.edges) (hdst : e.dst = .taskOut v) :
    T.outCell env v = after S (T.start input) (T.run B input).1 (e.src.key S) := by
  have hkey : e.dst.key S = (S.boundaryID, v.name) := by rw [hdst]; rfl
  rw [outCell, ← hkey, source_dst he, (visits_ok h).2.2]
  rfl

lemma Supplies.mono {log' : List (Visit ν ρ)} {x : BlValue} (hlog : log ⊆ log')
    (hx : Supplies input log h x) : Supplies input log' h x := by
  cases h with
  | nodeOut m w =>
    obtain ⟨vst, hv, hrest⟩ := hx
    exact ⟨vst, hlog hv, hrest⟩
  | taskIn _ | taskOut _ | nodeIn _ _ | reference _ | bare _ => exact hx

/-- On an unambiguous graph, what arrives at an input of a node was written by the source of
its edge. -/
lemma Unambiguous.arrives_in (hT : T.Unambiguous) (h : (T.run B input).1 = pre ++ vst :: post)
    (hv : v ∈ (S.node vst.node).inVars.vars) : ∃ e ∈ T.edges, e.dst = .nodeIn vst.node v ∧
      ∃ x, vst.inputs v.name = some ⟨e.src, x⟩ ∧ Supplies input pre e.src x := by
  have hno : vst.node ∈ T.order :=
    (run_initial (show _ = (pre ++ [vst]) ++ post by simpa using h)).subset (by simp)
  obtain ⟨e, he, hdst⟩ :=
    hT.wiredIn vst.node (nodeMap_eq_some (DecisionTask.mem_order.1 hno)).1 v hv
  have hread : T.Readable (· ∈ pre.map node) e.src := by
    have := hT.sourceIn e he _ _ hdst
    simpa only [before_iff_mem_pre h] using this
  have hnode : ∀ m w, e.src = .nodeOut m w → m ∈ pre.map node := fun m w hsrc => by
    have hm : e.src.node? = some m := by rw [hsrc]; rfl
    have hn : e.dst.node? = some vst.node := by rw [hdst]; rfl
    rw [← before_iff_mem_pre h]
    exact before_of_edge he hm hn (hT.mem_order (mem_endpoints_src he hm)) hno
  obtain ⟨x, hx, hsup⟩ := after_of_readable input (run_initial h)
    (fun v hv => runErased_of_mem (h ▸ mem_append_left _ hv) ((visits_split h).2.2 v hv))
    e.src_exists hnode hread
  exact ⟨e, he, hdst, x, by rw [inputs_eq h he hdst, hx], hsup⟩

/-- And so was what arrives at an output of the task. -/
lemma Unambiguous.arrives_out (hT : T.Unambiguous) {env : Store ν ρ}
    (h : (T.run B input).2 = .ok env) (hv : v ∈ S.outvars.vars) :
    ∃ e ∈ T.edges, e.dst = .taskOut v ∧
      ∃ x, T.outCell env v = some ⟨e.src, x⟩ ∧ Supplies input (T.run B input).1 e.src x := by
  obtain ⟨e, he, hdst⟩ := hT.wiredOut v hv
  have hnodes : (T.run B input).1.map node = T.order := (visits_ok h).1
  obtain ⟨x, hx, hsup⟩ := after_of_readable input
    (show (T.run B input).1.map node <+: T.order from hnodes ▸ prefix_rfl)
    (fun v hv => runErased_of_mem hv ((visits_ok h).2.1 v hv)) e.src_exists
    (fun m w hsrc => by
      rw [hnodes]
      exact hT.mem_order (mem_endpoints_src he (by rw [hsrc]; rfl)))
    (by simpa only [hnodes] using hT.sourceOut e he v hdst)
  exact ⟨e, he, hdst, x, by rw [outCell_eq h he hdst, hx], hsup⟩

/-- What a node answers is what its `Evaluate` makes of the struct it is called with. -/
lemma outcome_eq (h : (T.run B input).1 = pre ++ vst :: post) {s : Filled (S.node vst.node).inVars}
    (hs : received S vst = .ok s) :
    vst.outcome = (B vst.node s >>= fun out => .ok (outputToMap out)) := by
  have houtcome := (visits_split h).2.1
  rw [runErased, show inputFromMap _ _ = .ok s from hs, ok_bind] at houtcome
  exact houtcome

/-- A handle supplies one value. -/
lemma Supplies.unique (hlog : (log.map node).Nodup) {x y : BlValue} (hx : Supplies input log h x)
    (hy : Supplies input log h y) : x = y := by
  cases h with
  | taskIn _ | reference _ => exact Eq.trans hx (Eq.symm hy)
  | nodeOut m w =>
    obtain ⟨vst, hv, rfl, out, hout, hx⟩ := hx
    obtain ⟨vst', hv', hnode, out', hout', hy⟩ := hy
    obtain rfl := inj_on_of_nodup_map hlog hv' hv hnode
    cases hout.symm.trans hout'
    exact Option.some.inj (hx.symm.trans hy)
  | taskOut _ | nodeIn _ _ | bare _ => exact hx.elim

/-- On an unambiguous graph a run is faithful when no null has to be assigned. -/
lemma Unambiguous.faithful (hT : T.Unambiguous) (hS : T.Supplied B input) :
    T.Faithful B input := by
  have hinputs : ∀ pre vst post, (T.run B input).1 = pre ++ vst :: post →
      ∃ s, received S vst = .ok s ∧ ∀ v ∈ (S.node vst.node).inVars.vars,
        T.Receives input pre (.nodeIn vst.node v) (vst.inputs v.name) (s.val v.name) := by
    intro pre vst post h
    have hpre : pre ⊆ (T.run B input).1 := h ▸ subset_append_left _ _
    obtain ⟨s, hs, hval⟩ := Contract.fill_ok (c := (S.node vst.node).inVars)
      (g := fun v => .ok ((vst.inputs v.name).map Cell.value))
      (f := fun v => (vst.inputs v.name).map Cell.value) (fun _ _ => rfl)
      (fun v hv x hx => by
        obtain ⟨e, he, hdst, y, hy, hsup⟩ := hT.arrives_in h hv
        rw [hy] at hx
        cases hx
        rw [hS.inputs vst (h ▸ by simp) e he v hdst _ (hsup.mono hpre), e.sameType, hdst]
        rfl)
    refine ⟨s, hs, fun v hv => ?_⟩
    obtain ⟨e, he, hdst, x, hx, hsup⟩ := hT.arrives_in h hv
    exact ⟨e, he, hdst, x, hx, by rw [hval v hv, hx]; rfl, hsup⟩
  refine ⟨T.order_nodup.sublist (T.visits_nodes).sublist, hinputs, ?_⟩
  cases hrun : (T.run B input).2 with
  | error err =>
    obtain ⟨vst, hv, hvst⟩ := visits_error hrun
    obtain ⟨pre, post, h⟩ := append_of_mem hv
    obtain ⟨s, hs, -⟩ := hinputs pre vst post h
    rw [outcome_eq h hs] at hvst
    refine .inl ⟨vst, hv, s, err, hs, ?_, by rw [evaluate, hrun]; rfl⟩
    cases hB : B vst.node s with
    | error err' =>
      rw [hB] at hvst
      cases hvst
      rfl
    | ok out =>
      rw [hB] at hvst
      cases hvst
  | ok env =>
    have hnodes : (T.run B input).1.map node = T.order := (visits_ok hrun).1
    refine .inr ⟨fun n hn => hnodes ▸ hT.mem_order hn, env, ?_⟩
    obtain ⟨out, hout, hval⟩ := Contract.fill_ok (c := S.outvars)
      (g := fun v => .ok (some (((T.outCell env v).map Cell.value).getD .null)))
      (f := fun v => some (((T.outCell env v).map Cell.value).getD .null)) (fun _ _ => rfl)
      (fun v hv x hx => by
        obtain ⟨e, he, hdst, y, hy, hsup⟩ := hT.arrives_out hrun hv
        rw [hy] at hx
        cases hx
        exact (hS.outputs (visits_ok hrun).2.1 e he v hdst _ hsup).trans
          (e.sameType.trans (by rw [hdst]; rfl)))
    refine ⟨out, rfl, by rw [evaluate, hrun]; exact hout, fun v hv => ?_⟩
    obtain ⟨e, he, hdst, x, hx, hsup⟩ := hT.arrives_out hrun hv
    exact ⟨e, he, hdst, x, hx, by rw [hval v hv, hx]; rfl, hsup⟩

/-- A value that a handle of the edge's destination holds is of the type of the source. -/
lemma Receives.holdsValue {dst : Handle ν ρ} {arrived : Option (Cell ν ρ)} {held : Option BlValue}
    (hF : T.Faithful B input) (hlog : log ⊆ (T.run B input).1)
    (hR : T.Receives input log dst arrived held) (hheld : ∀ x, held = some x → x.kind = dst.elem S)
    (he : e ∈ T.edges) (hdst : e.dst = dst) : HoldsValue input (T.run B input).1 e.src := by
  obtain ⟨e', he', hdst', x, -, hx, hsup⟩ := hR
  obtain rfl := edge_eq_of_dst he he' (hdst.trans hdst'.symm)
  intro y hy
  rw [← Supplies.unique hF.once (hsup.mono hlog) hy, hheld x hx, e.sameType, hdst]

/-- And only then. -/
lemma Faithful.supplied (hF : T.Faithful B input) : T.Supplied B input where
  inputs vst hvst e he v hdst := by
    obtain ⟨pre, post, h⟩ := append_of_mem hvst
    have hv : (Handle.nodeIn vst.node v).Exists S := hdst ▸ e.dst_exists
    obtain ⟨s, -, hs⟩ := hF.inputs pre vst post h
    exact (hs v hv).holdsValue hF (h ▸ subset_append_left _ _) (s.typed v hv) he hdst
  outputs hok e he v hdst := by
    have hv : (Handle.taskOut v : Handle ν ρ).Exists S := hdst ▸ e.dst_exists
    rcases hF.result with ⟨vst, hvst, s, err, hs, hB, -⟩ | ⟨-, env, out, -, -, hout⟩
    · obtain ⟨pre, post, h⟩ := append_of_mem hvst
      obtain ⟨o, ho⟩ := hok vst hvst
      rw [outcome_eq h hs, hB] at ho
      cases ho
    · exact (hout v hv).holdsValue hF (List.Subset.refl _) (out.typed v hv) he hdst

/-! ## Unfaithful graphs

For the converse every node answers its own types' zero values, on an input of
zero values.  As long as every destination receives what its edge names, the types
fit and no node fails; so if the graph is ambiguous somewhere, the run gets there.
-/

/-- The struct that holds its types' zero values. -/
def zeros (c : Contract) : Filled c where
  val name := (c.find name).map fun v => v.elem.zero
  typed v hv x hx := by
    rw [Contract.find_eq_some.2 ⟨hv, rfl⟩] at hx
    cases hx
    exact Kind.kind_zero _

lemma getValue_zeros {c : Contract} (hv : v ∈ c.vars) :
    (zeros c).getValue v.name = v.elem.zero := by
  simp [Filled.getValue, zeros, Contract.find_eq_some.2 ⟨hv, rfl⟩]

/-- Nodes that answer zero values. -/
def zeroBehaviour (S : Scope ν ρ) : Behaviour S := fun n _ => .ok (zeros (S.node n).outVars)

variable {x : BlValue}

lemma kind_of_supplies (hlog : ∀ vst ∈ log, ∀ out, vst.outcome = .ok out →
      ∃ ins, runErased (zeroBehaviour S) vst.node ins = .ok out) (hex : h.Exists S)
    (hx : Supplies (zeros S.invars) log h x) : x.kind = h.elem S := by
  cases h with
  | taskIn v =>
    rw [Supplies] at hx
    rw [hx, getValue_zeros hex]
    exact Kind.kind_zero _
  | reference r =>
    rw [Supplies] at hx
    rw [hx]
    rfl
  | nodeOut m w =>
    obtain ⟨vst, hv, rfl, out, ho, hx⟩ := hx
    obtain ⟨ins, hrun⟩ := hlog vst hv out ho
    simp only [runErased, bind_eq_ok, zeroBehaviour] at hrun
    obtain ⟨_, -, _, h₁, h₂⟩ := hrun
    cases h₁
    cases h₂
    rw [outputToMap, if_pos ((S.node vst.node).outVars.mem_names hex), getValue_zeros hex] at hx
    cases hx
    exact Kind.kind_zero _
  | taskOut _ | nodeIn _ _ | bare _ => exact hx.elim

/-- Zero-valued nodes and inputs leave nothing unset. -/
lemma supplied_zeros : T.Supplied (zeroBehaviour S) (zeros S.invars) := by
  have hholds : ∀ e : Edge S,
      HoldsValue (zeros S.invars) (T.run (zeroBehaviour S) (zeros S.invars)).1 e.src := by
    intro e x hx
    refine kind_of_supplies (fun vst hv out hout => ?_) e.src_exists hx
    obtain ⟨out', ins, ho', hrun⟩ := runErased_of_mem hv ⟨out, hout⟩
    cases hout.symm.trans ho'
    exact ⟨ins, hrun⟩
  exact ⟨fun _ _ e _ _ _ => hholds e, fun _ e _ _ _ => hholds e⟩

/-- What a source supplies was read under its key, so the source is readable. -/
lemma readable_of_after (hlog : log.map node <+: T.order) (hok : AllOk log)
    (hx : after S (T.start input) log (h.key S) = some ⟨h, x⟩) (hsup : Supplies input log h x) :
    T.Readable (· ∈ log.map node) h := by
  cases h with
  | nodeOut _ _ => trivial
  | reference r =>
    rw [Handle.key, after_reference, refVals_referenceField, Option.map_eq_some_iff] at hx
    obtain ⟨r', hr', hcell⟩ := hx
    cases hcell
    exact hr'
  | taskIn v =>
    intro m hm hid hv
    obtain ⟨vst, hvst, rfl⟩ := mem_map.1 hm
    obtain ⟨out, ho⟩ := hok vst hvst
    obtain ⟨w, hw, hname⟩ := mem_map.1 hv
    have hover := after_of_mem (T.start input) (ids_nodup_of_initial hlog) hvst ho hw
    rw [hid, hname] at hover
    rw [Handle.key, hover] at hx
    cases hx
  | taskOut _ | nodeIn _ _ | bare _ => exact hsup

end Run

/-- A graph whose zero-valued run is faithful is unambiguous. -/
lemma Faithful.unambiguous (hF : T.Faithful (zeroBehaviour S) (zeros S.invars)) :
    T.Unambiguous := by
  rcases hF.result with ⟨_, _, _, _, _, hB, _⟩ | ⟨hall, env, out, henv, -, hout⟩
  · cases hB
  have hnodes : (T.run (zeroBehaviour S) (zeros S.invars)).1.map node = T.order :=
    (visits_ok henv).1
  have hok : AllOk (T.run (zeroBehaviour S) (zeros S.invars)).1 := (visits_ok henv).2.1
  have hmem : ∀ n ∈ endpoints S T.edges, n ∈ T.order := fun n hn => hnodes ▸ hall n hn
  -- Every node of the graph is evaluated at some point of the run.
  have hvisit : ∀ n ∈ endpoints S T.edges, ∃ pre vst post, vst.node = n ∧
      (T.run (zeroBehaviour S) (zeros S.invars)).1 = pre ++ vst :: post := fun n hn => by
    obtain ⟨vst, hv, rfl⟩ := mem_map.1 (hall n hn)
    obtain ⟨pre, post, h⟩ := append_of_mem hv
    exact ⟨pre, vst, post, rfl, h⟩
  constructor
  case distinct =>
    exact fun m hm n hn hid => inj_on_of_nodup_map T.order_ids_nodup (hmem m hm) (hmem n hn) hid
  case wiredIn =>
    intro n hn v hv
    obtain ⟨pre, vst, post, rfl, h⟩ := hvisit n hn
    obtain ⟨s, -, hs⟩ := hF.inputs pre vst post h
    obtain ⟨e, he, hdst, -⟩ := hs v hv
    exact ⟨e, he, hdst⟩
  case wiredOut =>
    intro v hv
    obtain ⟨e, he, hdst, -⟩ := hout v hv
    exact ⟨e, he, hdst⟩
  case sourceIn =>
    intro e he n v hdst
    obtain ⟨pre, vst, post, rfl, h⟩ := hvisit n (mem_endpoints_dst he (by rw [hdst]; rfl))
    have hv : (Handle.nodeIn vst.node v).Exists S := hdst ▸ e.dst_exists
    obtain ⟨s, -, hs⟩ := hF.inputs pre vst post h
    obtain ⟨e', he', hdst', x, hx, -, hsup⟩ := hs v hv
    obtain rfl := edge_eq_of_dst he he' (hdst.trans hdst'.symm)
    rw [inputs_eq h he hdst] at hx
    have := readable_of_after (run_initial h) (visits_split h).2.2 hx hsup
    simpa only [before_iff_mem_pre h] using this
  case sourceOut =>
    intro e he v hdst
    have hv : (Handle.taskOut v : Handle ν ρ).Exists S := hdst ▸ e.dst_exists
    obtain ⟨e', he', hdst', x, hx, -, hsup⟩ := hout v hv
    obtain rfl := edge_eq_of_dst he he' (hdst.trans hdst'.symm)
    rw [outCell_eq henv he hdst] at hx
    have := readable_of_after (hnodes ▸ prefix_rfl) hok hx hsup
    simpa only [hnodes] using this

/-- The runs of an accepted task in which no null has to be assigned are faithful, whatever
its nodes compute and on every input, exactly when its graph is unambiguous; and on an
unambiguous graph no other run is. -/
theorem faithful_iff (T : DecisionTask S) :
    ((∀ (B : Behaviour S) (input : Filled S.invars), T.Supplied B input → T.Faithful B input) ↔
      T.Unambiguous) ∧
    (T.Unambiguous → ∀ (B : Behaviour S) (input : Filled S.invars),
      T.Faithful B input ↔ T.Supplied B input) :=
  ⟨⟨fun h => (h _ _ supplied_zeros).unambiguous, fun hT _ _ => hT.faithful⟩,
    fun hT _ _ => ⟨Faithful.supplied, hT.faithful⟩⟩

/-- Two nodes without inputs, both called `score`, each with one output `score`;
the task has an output for either. -/
def twinScope : Scope Bool Empty where
  boundaryID := "task"
  invars := .empty
  outvars := ⟨[⟨"a", .number⟩, ⟨"b", .number⟩], by decide, by decide⟩
  node _ := ⟨"score", .empty, ⟨[⟨"score", .number⟩], by decide, by decide⟩⟩
  reference := nofun

/-- The first node feeds `a`, the second one `b`. -/
def twinTask : DecisionTask twinScope where
  edges :=
    [⟨.nodeOut false ⟨"score", .number⟩, .taskOut ⟨"a", .number⟩,
        by simp [Handle.Exists, twinScope], by simp [Handle.Exists, twinScope], rfl⟩,
      ⟨.nodeOut true ⟨"score", .number⟩, .taskOut ⟨"b", .number⟩,
        by simp [Handle.Exists, twinScope], by simp [Handle.Exists, twinScope], rfl⟩]
  ids := ["score"]
  ids_nodup := by decide
  mem_ids id := by
    rw [nodeMap, writeAll_apply, Option.isSome_map, lastAt_isSome, List.mem_singleton, eq_comm]
    simp [endpoints, Handle.node?, twinScope]
  accepted := by rfl

/-- The first node answers 1, the second one 2. -/
def twinBehaviour : Behaviour twinScope := fun n _ =>
  .ok ⟨fun _ => some (.number (if n then 2 else 1)), by simp [twinScope, BlValue.kind]⟩

/-- Only the second node runs, and its 2 arrives at both outputs. -/
theorem twinTask_unfaithful : (twinTask.run twinBehaviour (Filled.empty _)).1.map node = [true] ∧
      (twinTask.evaluate twinBehaviour (Filled.empty _)).map (fun out => out.getValue "a") =
        .ok (.number 2) ∧
      ¬ twinTask.Faithful twinBehaviour (Filled.empty _) := by
  have hrun : (twinTask.run twinBehaviour (Filled.empty _)).1.map node = [true] := by rfl
  refine ⟨hrun, by rfl, fun hF => ?_⟩
  rcases hF.result with ⟨_, _, _, _, _, hB, _⟩ | ⟨hall, -⟩
  · cases hB
  · rw [hrun] at hall
    have hfalse := hall false
    simp [endpoints, twinTask, Handle.node?] at hfalse

end DecisionTask

end Blkit
