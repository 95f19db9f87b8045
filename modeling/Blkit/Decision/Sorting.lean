import Blkit.Decision.Wiring
import Blkit.Order.Level

/-!
# The order in which a task's nodes are evaluated

`topoSortNodes` starts from the nodes without producers in the order in which a map happens
to be iterated.  If ids confuse nothing, it finds a cycle whenever there is one and otherwise
puts every producer before its consumers, and which of these orders it finds is of no
consequence for what the task answers.  If several nodes fail, it is: the error is that of
the node that comes first.
-/

namespace Blkit

open Fallible

variable {ν ρ : Type} {S : Scope ν ρ}

/-- An order in which the map of nodes is iterated. -/
structure Iteration (S : Scope ν ρ) (edges : List (Edge S)) where
  ids : List String
  ids_nodup : ids.Nodup
  mem_ids : ∀ id, id ∈ ids ↔ (nodeMap S edges id).isSome

/-- The first node produces something that the second one consumes. -/
def FeedsNode (edges : List (Edge S)) (m n : ν) : Prop :=
  ∃ e ∈ edges, e.src.node? = some m ∧ e.dst.node? = some n

/-- The ids of the nodes differ from each other, from the task's, and from those of reference
values. -/
structure DistinctIds (S : Scope ν ρ) (edges : List (Edge S)) : Prop where
  nodes : ∀ m ∈ endpoints S edges, ∀ n ∈ endpoints S edges, (S.node m).id = (S.node n).id → m = n
  task : ∀ m ∈ endpoints S edges, (S.node m).id ≠ S.boundaryID
  references : ∀ m ∈ endpoints S edges, ∀ r, (S.node m).id ≠ (S.reference r).id

variable {edges : List (Edge S)} {m n : ν}

lemma FeedsNode.mem_left (h : FeedsNode edges m n) : m ∈ endpoints S edges := by
  obtain ⟨e, he, hm, -⟩ := h
  exact mem_endpoints_src he hm

lemma FeedsNode.mem_right (h : FeedsNode edges m n) : n ∈ endpoints S edges := by
  obtain ⟨e, he, -, hn⟩ := h
  exact mem_endpoints_dst he hn

lemma FeedsNode.mem_links (h : FeedsNode edges m n) :
    ((S.node m).id, (S.node n).id) ∈ links S edges := by
  obtain ⟨e, he, hm, hn⟩ := h
  exact Blkit.mem_links.2 ⟨e, he, m, n, hm, hn, rfl, rfl⟩

lemma DistinctIds.nodeMap (h : DistinctIds S edges) (hn : n ∈ endpoints S edges) :
    nodeMap S edges (S.node n).id = some n := by
  obtain ⟨m, hm⟩ := Option.isSome_iff_exists.1 (nodeMap_isSome_of_mem hn)
  obtain ⟨hmem, hid⟩ := nodeMap_eq_some hm
  rw [hm, h.nodes m hmem n hn hid]

namespace Iteration

variable (I : Iteration S edges)

/-- The nodes that `topoSortNodes` returns. -/
def order : List ν := (topoSortNodes S edges I.ids).filterMap (nodeMap S edges)

/-- Whether it reports a cycle: these are not all nodes. -/
def cyclic : Bool := I.order.length != I.ids.length

def plan : Fifo.Plan String := nodePlan I.ids_nodup I.mem_ids

lemma map_id_order : I.order.map (fun n => (S.node n).id) = I.plan.sorted :=
  map_id_filterMap fun id hid => (I.mem_ids id).1 (Fifo.Plan.mem_sorted (P := I.plan).1 hid).1

lemma order_ids_nodup : (I.order.map fun n => (S.node n).id).Nodup :=
  I.map_id_order ▸ I.plan.sorted_nodup

lemma complete_iff : I.plan.Complete ↔ I.cyclic = false := by
  rw [Fifo.Plan.complete_iff_length, ← I.map_id_order, List.length_map, cyclic, bne_eq_false_iff_eq]
  rfl

variable {I}

variable {a b : String}

lemma awaits_iff : I.plan.Awaits a b ↔ (a, b) ∈ links S edges := by
  refine ⟨fun h => mem_deps.1 h.2, fun h => ⟨(mem_ids_of_link I.mem_ids h).2, mem_deps.2 h⟩⟩

/-- Ids that wait for each other belong to nodes that feed each other. -/
lemma exists_feeds_of_awaits (hS : DistinctIds S edges) (h : Relation.TransGen I.plan.Awaits a b) :
    ∃ m n, (S.node m).id = a ∧ (S.node n).id = b ∧ m ∈ endpoints S edges ∧ n ∈ endpoints S edges ∧
      Relation.TransGen (FeedsNode edges) m n := by
  induction h with
  | single h =>
    obtain ⟨e, he, m, n, hm, hn, rfl, rfl⟩ := mem_links.1 (awaits_iff.1 h)
    exact ⟨m, n, rfl, rfl, mem_endpoints_src he hm, mem_endpoints_dst he hn,
      .single ⟨e, he, hm, hn⟩⟩
  | tail _ h ih =>
    obtain ⟨m, n, rfl, rfl, hm, hn, hmn⟩ := ih
    obtain ⟨e, he, n', p, hn', hp, hid, rfl⟩ := mem_links.1 (awaits_iff.1 h)
    obtain rfl := hS.nodes n' (mem_endpoints_src he hn') n hn hid
    exact ⟨m, p, rfl, rfl, hm, mem_endpoints_dst he hp, hmn.tail ⟨e, he, hn', hp⟩⟩

lemma complete_iff_acyclic (hS : DistinctIds S edges) :
    I.plan.Complete ↔ ∀ n, ¬ Relation.TransGen (FeedsNode edges) n n := by
  rw [Fifo.Plan.complete_iff_acyclic fun m _ d hd => (mem_ids_of_link I.mem_ids (mem_deps.1 hd)).1]
  constructor
  · intro h n hn
    exact h _ (hn.lift (fun n => (S.node n).id) fun _ _ h => awaits_iff.2 h.mem_links)
  · intro h k hk
    obtain ⟨m, n, hm, hn, hm', hn', hmn⟩ := exists_feeds_of_awaits hS hk
    obtain rfl := hS.nodes m hm' n hn' (hm.trans hn.symm)
    exact h m hmn

lemma mem_order (hS : DistinctIds S edges) (hI : I.plan.Complete) : n ∈ I.order ↔
    n ∈ endpoints S edges := by
  rw [order, List.mem_filterMap]
  constructor
  · rintro ⟨id, -, h⟩
    exact (nodeMap_eq_some h).1
  · intro h
    exact ⟨_, hI _ ((I.mem_ids _).2 (nodeMap_isSome_of_mem h)), hS.nodeMap h⟩

lemma before_of_feeds (hS : DistinctIds S edges) (hI : I.plan.Complete) (h : FeedsNode edges m n) :
    Before I.order m n := by
  have hids : Before (I.order.map fun n => (S.node n).id) (S.node m).id (S.node n).id := by
    rw [map_id_order]
    refine Fifo.Plan.deps_before (hI _ ?_) (mem_deps.2 h.mem_links)
    exact (mem_ids_of_link I.mem_ids h.mem_links).2
  exact hids.of_map I.order_ids_nodup ((mem_order hS hI).2 h.mem_left)
    ((mem_order hS hI).2 h.mem_right)

end Iteration

/-! ## Evaluating in another order -/

namespace DecisionTask

variable {env : Store ν ρ}

/-- Logs with the same evaluations of the node of this id leave the same value under a key. -/
lemma after_congr {log log' : List (Visit ν ρ)} {k : HandleKey}
    (hnd : (log.map fun vst => (S.node vst.node).id).Nodup)
    (hnd' : (log'.map fun vst => (S.node vst.node).id).Nodup)
    (hok : AllOk log) (h : ∀ vst, (S.node vst.node).id = k.1 → (vst ∈ log ↔ vst ∈ log')) :
    after S env log k = after S env log' k := by
  by_cases hw : ∃ vst ∈ log, (S.node vst.node).id = k.1 ∧ k.2 ∈ (S.node vst.node).outVars.names
  · obtain ⟨vst, hv, hid, hname⟩ := hw
    obtain ⟨w, hwv, hwn⟩ := List.mem_map.1 hname
    obtain ⟨out, hout⟩ := hok vst hv
    have hk : k = ((S.node vst.node).id, w.name) := Prod.ext hid.symm hwn.symm
    rw [hk, after_of_mem env hnd hv hout hwv, after_of_mem env hnd' ((h vst hid).1 hv) hout hwv]
  · have hno : ∀ vst ∈ log, (S.node vst.node).id = k.1 → k.2 ∉ (S.node vst.node).outVars.names :=
      fun vst hv hid hname => hw ⟨vst, hv, hid, hname⟩
    rw [after_of_not_mem hno, after_of_not_mem fun vst hv hid => hno vst ((h vst hid).2 hv) hid]

variable {T T' : DecisionTask S} {B : Behaviour S} {input : Filled S.invars}

lemma mem_endpoints_of_mem_order (h : n ∈ T.order) : n ∈ endpoints S T.edges :=
  (nodeMap_eq_some (mem_order.1 h)).1

/-- `Graph` refuses empty ids. -/
lemma id_ne_empty (hn : n ∈ T.order) : (S.node n).id ≠ "" := by
  intro hid
  have h := graph_eq_ok.1 T.accepted
  simp only [graphProblems, List.append_eq_nil_iff, List.flatMap_eq_nil_iff] at h
  have hmem : (S.node n).id ∈ T.ids :=
    (T.mem_ids _).2 (nodeMap_isSome_of_mem (mem_endpoints_of_mem_order hn))
  have hnil := (h.1.1.2 _ hmem).1
  rw [if_pos hid] at hnil
  cases hnil

/-- A handle with the id of a node is a handle of the node. -/
lemma node?_of_key (hS : DistinctIds S T.edges) (hn : n ∈ T.order) {h : Handle ν ρ}
    (hmem : ∀ m, h.node? = some m → m ∈ endpoints S T.edges) (hid : (h.key S).1 = (S.node n).id) :
      h.node? = some n := by
  have hn' := mem_endpoints_of_mem_order hn
  cases h with
  | taskIn v | taskOut v => exact absurd hid.symm (hS.task n hn')
  | nodeIn m v | nodeOut m v => exact congrArg some (hS.nodes m (hmem m rfl) n hn' hid)
  | reference r => exact absurd hid.symm (hS.references n hn' r)
  | bare k => exact absurd hid.symm (id_ne_empty hn)

/-- What a node reads under the id of another node is what that one has produced. -/
lemma feeds_of_source (hS : DistinctIds S T.edges) (hm : m ∈ T.order)
    (hn : n ∈ T.order) {name : String}
    (h : (S.node m).id = (T.source ((S.node n).id, name)).1) : FeedsNode T.edges m n := by
  rw [source, dstSrc, writeAll_apply] at h
  cases hlast : lastAt (fun e => e.dst.key S) T.edges ((S.node n).id, name) with
  | none =>
    rw [hlast] at h
    exact absurd h (id_ne_empty hm)
  | some e =>
    rw [hlast] at h
    obtain ⟨he, hdst⟩ := lastAt_eq_some hlast
    refine ⟨e, he, node?_of_key hS hm (fun _ => mem_endpoints_src he) h.symm, ?_⟩
    exact node?_of_key hS hn (fun _ => mem_endpoints_dst he) (congrArg Prod.fst hdst)

lemma before_of_feeds (h : FeedsNode T.edges m n) (hm : m ∈ T.order) (hn : n ∈ T.order) :
    Before T.order m n := by
  obtain ⟨e, he, hsrc, hdst⟩ := h
  exact before_of_edge he hsrc hdst hm hn

lemma mem_order_iff (hS : DistinctIds S T.edges) : n ∈ T.order ↔ n ∈ endpoints S T.edges :=
  ⟨mem_endpoints_of_mem_order, fun h => mem_order.2 (hS.nodeMap h)⟩

lemma run_nodes_nodup : ((T.run B input).1.map Visit.node).Nodup :=
  T.order_nodup.sublist T.visits_nodes.sublist

lemma run_env (h : (T.run B input).2 = .ok env) : env = after S (T.start input) (T.run B input).1 :=
  (visits_ok h).2.2

lemma source_eq (hE : T'.edges = T.edges) : T'.source = T.source := by
  funext k
  rw [source, source, hE]

lemma start_eq (hE : T'.edges = T.edges) : T'.start input = T.start input := by
  funext k
  rw [start, start, hE]

/-- A node that a node reads from has been evaluated before it. -/
lemma exists_mem_pre_of_source (hS : DistinctIds S T.edges) {pre post : List (Visit ν ρ)}
    {vst : Visit ν ρ} (hrun : (T.run B input).1 = pre ++ vst :: post) (hm : m ∈ T.order)
    (hn : vst.node ∈ T.order) {name : String}
    (hid : (S.node m).id = (T.source ((S.node vst.node).id, name)).1) :
    ∃ v ∈ pre, v.node = m :=
  List.mem_map.1 ((before_iff_mem_pre hrun).1
    (before_of_feeds (feeds_of_source hS hm hn hid) hm hn))

/-- If a run in some order succeeds, every evaluation of a run in another order is one of it. -/
lemma mem_run_of_ok (hS : DistinctIds S T.edges) (hE : T'.edges = T.edges)
    (hok : (T'.run B input).2 = .ok env) {pre : List (Visit ν ρ)} :
    ∀ post, (T.run B input).1 = pre ++ post → ∀ vst ∈ pre, vst ∈ (T'.run B input).1 := by
  have hS' : DistinctIds S T'.edges := hE ▸ hS
  have hnodes : (T'.run B input).1.map Visit.node = T'.order := (visits_ok hok).1
  have hinj : ∀ {v v'}, v ∈ (T'.run B input).1 → v' ∈ (T'.run B input).1 →
      v.node = v'.node → v = v' :=
    fun hv hv' => List.inj_on_of_nodup_map run_nodes_nodup hv hv'
  have horder : ∀ {n}, n ∈ T'.order ↔ n ∈ T.order := by
    intro n
    rw [mem_order_iff hS, mem_order_iff hS', hE]
  induction pre using List.reverseRecOn with
  | nil => exact nofun
  | append_singleton pre vst ih =>
    intro post hrun
    rw [List.append_assoc, List.singleton_append] at hrun
    have ih := ih _ hrun
    refine List.forall_mem_append.2 ⟨ih, List.forall_mem_singleton.2 ?_⟩
    have hn : vst.node ∈ T.order :=
      (run_initial (show _ = (pre ++ [vst]) ++ post by simpa using hrun)).subset (by simp)
    have hn' : vst.node ∈ (T'.run B input).1.map Visit.node := hnodes ▸ horder.2 hn
    obtain ⟨vst', hv', hnode⟩ := List.mem_map.1 hn'
    obtain ⟨pre', post', hrun'⟩ := List.append_of_mem hv'
    obtain ⟨hins, hout, hpre⟩ := visits_split hrun
    obtain ⟨hins', hout', -⟩ := visits_split hrun'
    -- The nodes a node reads from have been evaluated before it in both runs.
    have hinputs : vst.inputs = vst'.inputs := by
      rw [hins, hins', hnode]
      funext name
      rw [inMap, inMap, source_eq hE, start_eq hE]
      split_ifs with hname
      · refine after_congr (ids_nodup_of_initial (run_initial hrun))
          (ids_nodup_of_initial (run_initial hrun')) hpre ?_
        intro v hid
        constructor
        · intro hv
          have hvo : v.node ∈ T.order := (run_initial hrun).subset (List.mem_map_of_mem hv)
          obtain ⟨v', hmem, heq⟩ := exists_mem_pre_of_source hS' hrun' (horder.2 hvo)
            (hnode ▸ horder.2 hn) (by rwa [hnode, source_eq hE])
          rwa [← hinj (hrun' ▸ List.mem_append_left _ hmem) (ih v hv) heq]
        · intro hv
          have hvo' : v.node ∈ T'.order := (run_initial hrun').subset (List.mem_map_of_mem hv)
          obtain ⟨v', hmem, heq⟩ := exists_mem_pre_of_source hS hrun (horder.1 hvo') hn hid
          rwa [← hinj (ih v' hmem) (hrun' ▸ List.mem_append_left _ hv) heq]
      · rfl
    have houtcome : vst.outcome = vst'.outcome := by rw [hout, hout', hnode, hinputs]
    have heq : vst = vst' := by
      cases vst
      cases vst'
      cases hnode
      cases hinputs
      cases houtcome
      rfl
    rwa [heq]

/-- If no evaluation fails, the run does not. -/
lemma run_ok_of_allOk (h : AllOk (T.run B input).1) : ∃ env, (T.run B input).2 = .ok env := by
  cases hrun : (T.run B input).2 with
  | ok env => exact ⟨env, rfl⟩
  | error err =>
    obtain ⟨vst, hv, hvst⟩ := visits_error hrun
    obtain ⟨out, hout⟩ := h vst hv
    cases hvst.symm.trans hout

/-- Whether the nodes succeed, and with what, does not depend on the order. -/
lemma run_ok_of_ok (hS : DistinctIds S T.edges) (hE : T'.edges = T.edges)
    (hok : (T'.run B input).2 = .ok env) : (T.run B input).2 = .ok env := by
  have hsub : ∀ vst ∈ (T.run B input).1, vst ∈ (T'.run B input).1 :=
    mem_run_of_ok hS hE hok [] (List.append_nil _).symm
  obtain ⟨env₁, hok₁⟩ := run_ok_of_allOk fun vst hv => (visits_ok hok).2.1 vst (hsub vst hv)
  have hsup : ∀ vst ∈ (T'.run B input).1, vst ∈ (T.run B input).1 :=
    mem_run_of_ok (hE ▸ hS) hE.symm hok₁ [] (List.append_nil _).symm
  have henv : env₁ = env := by
    rw [run_env hok₁, run_env hok, start_eq hE]
    funext k
    exact after_congr (ids_nodup_of_initial T.visits_nodes) (ids_nodup_of_initial T'.visits_nodes)
      (visits_ok hok₁).2.1
      fun vst _ => ⟨hsub vst, hsup vst⟩
  exact henv ▸ hok₁

lemma evaluate_ok_of_ok (hS : DistinctIds S T.edges) (hE : T'.edges = T.edges)
    {out : Filled S.outvars}
    (h : T'.evaluate B input = .ok out) : T.evaluate B input = .ok out := by
  obtain ⟨env, hok, hfill⟩ := bind_eq_ok.1 h
  refine bind_eq_ok.2 ⟨env, run_ok_of_ok hS hE hok, ?_⟩
  have hcell : T'.outCell = T.outCell := by
    funext env v
    rw [outCell, outCell, source_eq hE]
  rwa [hcell] at hfill

end DecisionTask

/-- If ids confuse nothing, a cycle is reported exactly if there is one; otherwise every node
comes once and after its producers; and what a task answers, if it answers, does not depend
on the order in which its map of nodes was iterated. -/
theorem topoSort_correct {edges : List (Edge S)} (hS : DistinctIds S edges) :
    (∀ I : Iteration S edges, I.cyclic = true ↔
      ∃ n, Relation.TransGen (FeedsNode edges) n n) ∧
    (∀ I : Iteration S edges, I.cyclic = false → I.order.Nodup ∧
      (∀ n, n ∈ I.order ↔ n ∈ endpoints S edges) ∧
      ∀ m n, FeedsNode edges m n → Before I.order m n) ∧
    ∀ T T' : DecisionTask S, T.edges = edges → T'.edges = edges → ∀ B input out,
      T.evaluate B input = .ok out ↔ T'.evaluate B input = .ok out := by
  refine ⟨fun I => ?_, fun I hI => ?_, fun T T' hT hT' B input out => ?_⟩
  · rw [← Bool.not_eq_false, ← I.complete_iff, Iteration.complete_iff_acyclic hS, not_forall_not]
  · have hI := I.complete_iff.2 hI
    exact ⟨I.order_ids_nodup.of_map _, fun n => Iteration.mem_order hS hI,
      fun m n => Iteration.before_of_feeds hS hI⟩
  · subst hT
    exact ⟨DecisionTask.evaluate_ok_of_ok (hT' ▸ hS) hT'.symm,
      DecisionTask.evaluate_ok_of_ok hS hT'⟩

/-- Two nodes, each for one output of the task. -/
def pairScope : Scope Bool Empty where
  boundaryID := "task"
  invars := .empty
  outvars := ⟨[⟨"x", .number⟩, ⟨"y", .number⟩], by decide, by decide⟩
  node n := ⟨if n then "m" else "n", .empty, ⟨[⟨"rate", .number⟩], by decide, by decide⟩⟩
  reference := nofun

def pairEdges : List (Edge pairScope) :=
  [⟨.nodeOut true ⟨"rate", .number⟩, .taskOut ⟨"x", .number⟩, by simp [Handle.Exists, pairScope],
      by simp [Handle.Exists, pairScope], rfl⟩,
    ⟨.nodeOut false ⟨"rate", .number⟩, .taskOut ⟨"y", .number⟩, by simp [Handle.Exists, pairScope],
      by simp [Handle.Exists, pairScope], rfl⟩]

lemma mem_nodeMap_pair {id : String} : id ∈ ["m", "n"] ↔
    (nodeMap pairScope pairEdges id).isSome := by
  rw [nodeMap, writeAll_apply, Option.isSome_map, lastAt_isSome]
  simp [endpoints, pairEdges, Handle.node?, pairScope, eq_comm, or_comm]

def pairTask : DecisionTask pairScope where
  edges := pairEdges
  ids := ["m", "n"]
  ids_nodup := by decide
  mem_ids _ := mem_nodeMap_pair
  accepted := by rfl

/-- The same task, with the nodes the other way round. -/
def swappedTask : DecisionTask pairScope where
  edges := pairEdges
  ids := ["n", "m"]
  ids_nodup := by decide
  mem_ids id := (List.Perm.swap "m" "n" []).mem_iff.trans mem_nodeMap_pair
  accepted := by rfl

lemma distinctIds_pairEdges : DistinctIds pairScope pairEdges := by
  refine ⟨fun m _ n _ h => ?_, fun m _ => ?_, fun _ _ r => r.elim⟩
  · cases m <;> cases n <;> first | rfl | exact absurd h (by decide)
  · cases m <;> decide

/-- Whichever node comes first, the task answers the same. -/
theorem pair_answers_alike : ∃ out, pairTask.evaluate (DecisionTask.zeroBehaviour _)
    (Filled.empty _) = .ok out ∧
    swappedTask.evaluate (DecisionTask.zeroBehaviour _) (Filled.empty _) = .ok out := by
  refine ⟨_, rfl, ?_⟩
  exact ((topoSort_correct distinctIds_pairEdges).2.2 pairTask swappedTask rfl rfl _ _ _).1 rfl

/-- Every node fails with its id. -/
def failsAs : Behaviour pairScope := fun n _ => .error (.text (pairScope.node n).id)

/-- Both nodes fail; the task's error is that of the first. -/
theorem pair_fails_differently : pairTask.evaluate failsAs (Filled.empty _) = .error (.text "m") ∧
    swappedTask.evaluate failsAs (Filled.empty _) = .error (.text "n") := ⟨rfl, rfl⟩

end Blkit
