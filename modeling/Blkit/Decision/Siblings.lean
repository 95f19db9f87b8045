import Blkit.Decision.Expression
import Blkit.Expr.Effect
import Blkit.Order.Assign
import Blkit.Order.Level

/-!
# Sibling outputs and the order of evaluation

An entry must run after every sibling output it reads; then the outputs do not
depend on the order in which they are declared.  The evaluation plan is sorted by
the siblings that `siblingDeps` collects from the parsed source, which are fewer
than those the compiled tree reads.  `orderIndependent_iff` says exactly when the
plan is right in spite of that, for every order of declaration: each sibling an
entry reads must lie strictly below the entry in the graph of the collected ones.
-/

namespace Blkit

open Fallible Fifo List CompiledEntry

/-! ## The plan as a sort -/

section Entries

variable {entries : List CompiledEntry} (hnd : (entries.map output).Nodup)

include hnd

lemma byName_output {e : CompiledEntry} (he : e ∈ entries) : byName entries e.output = some e := by
  rw [byName, writeAll_apply, Option.map_id']
  exact lastAt_self hnd he

lemma map_output_filterMap {l : List String} (hl : ∀ m ∈ l, m ∈ entries.map output) :
    (l.filterMap (byName entries)).map output = l := by
  rw [map_filterMap]
  refine (filterMap_congr fun m hm => ?_).trans filterMap_some
  obtain ⟨e, he, rfl⟩ := mem_map.1 (hl m hm)
  rw [byName_output hnd he]
  rfl

/-- `topoSortEntries` accepts the entries when there is no cycle, and returns them
in the order of the sort. -/
lemma topoSortEntries_eq_ok {P : Plan String} (hkeys : P.keys.Perm (entries.map output))
    (hnext : P.next = dependents entries)
    (hindeg : P.indeg = entryIndeg entries)
    (hdeps : ∀ e ∈ entries, ∀ d ∈ e.deps, d ∈ P.deps e.output)
    {plan : List CompiledEntry} : topoSortEntries entries P.keys = .ok plan ↔
      P.Complete ∧ plan = P.sorted.filterMap (byName entries) := by
  have hout : (P.sorted.filterMap (byName entries)).map output = P.sorted :=
    map_output_filterMap hnd fun m hm => hkeys.mem_iff.1 (Plan.mem_sorted.1 hm).1
  have hlen : entries.length = P.keys.length := by rw [hkeys.length_eq, length_map]
  rw [topoSortEntries, ← hnext, ← hindeg]
  split
  · -- An entry that lists itself is never sorted.
    rename_i e he
    have hmem := mem_of_find?_eq_some he
    have hself := find?_some he
    rw [decide_eq_true_eq] at hself
    constructor
    · intro h
      cases h
    · rintro ⟨h, -⟩
      have hsorted := h e.output (hkeys.mem_iff.2 (mem_map_of_mem hmem))
      exact absurd (Plan.deps_before hsorted (hdeps e hmem _ hself))
        (Before.irrefl (Plan.sorted_nodup _))
  · have hlength : (P.sorted.filterMap (byName entries)).length = entries.length ↔ P.Complete := by
      rw [Plan.complete_iff_length, ← hlen, ← length_map output, hout]
    rw [← hlength]
    change (if (P.sorted.filterMap (byName entries)).length = _ then _ else _) = _ ↔ _
    split
    · rename_i hl
      exact ⟨fun h => ⟨hl, (Except.ok.inj h).symm⟩, fun h => h.2 ▸ rfl⟩
    · rename_i hl
      exact ⟨fun h => (nomatch h), fun h => absurd h.1 hl⟩

variable {order : List String} (horder : order.Perm (entries.map output))

/-- The sort of entries with different outputs. -/
def entryPlan : Plan String where
  keys := order
  deps name := keepFirst (((byName entries name).map deps).getD [])
  next := dependents entries
  indeg := entryIndeg entries
  keys_nodup := horder.nodup_iff.2 hnd
  deps_nodup _ _ := keepFirst_nodup _
  next_nodup name := hnd.sublist (filter_sublist.map _)
  mem_next n m := by
    simp only [dependents, mem_map, mem_filter, decide_eq_true_eq, mem_keepFirst, horder.mem_iff]
    constructor
    · rintro ⟨e, ⟨he, hn⟩, rfl⟩
      exact ⟨⟨e, he, rfl⟩, by rwa [byName_output hnd he]⟩
    · rintro ⟨⟨e, he, rfl⟩, hn⟩
      rw [byName_output hnd he] at hn
      exact ⟨e, ⟨he, hn⟩, rfl⟩
  indeg_eq m hm := by
    obtain ⟨e, he, rfl⟩ := mem_map.1 (horder.mem_iff.1 hm)
    simp [entryIndeg, byName_output hnd he]

omit hnd in
/-- The entry of `m` lists `d`. -/
def Lists (entries : List CompiledEntry) (d m : String) : Prop :=
  ∃ e ∈ entries, e.output = m ∧ d ∈ e.deps

include horder in
/-- The sort fails if and only if an entry depends on itself, directly or through others, and
otherwise returns every entry once, after those that it lists. -/
theorem topoSortEntries_correct (hdeps : ∀ e ∈ entries, ∀ d ∈ e.deps, d ∈ entries.map output) :
    ((∃ err, topoSortEntries entries order = .error err) ↔ ∃ n,
    Relation.TransGen (Lists entries) n n) ∧
    ∀ plan, topoSortEntries entries order = .ok plan → plan.Perm entries ∧
      ∀ e ∈ plan, ∀ d ∈ e.deps, Before (plan.map output) d e.output := by
  let P := entryPlan hnd horder
  have hP {e : CompiledEntry} (he : e ∈ entries) {d : String} : d ∈ P.deps e.output ↔
      d ∈ e.deps := by
    show d ∈ keepFirst _ ↔ _
    rw [mem_keepFirst, byName_output hnd he]
    rfl
  have hok (plan : List CompiledEntry) : topoSortEntries entries order = .ok plan ↔
      P.Complete ∧ plan = P.sorted.filterMap (byName entries) :=
    topoSortEntries_eq_ok (P := P) hnd horder rfl rfl fun e he d hd => (hP he).2 hd
  have hawaits : P.Awaits = Lists entries := by
    funext d m
    refine propext ⟨fun ⟨hm, hd⟩ => ?_, ?_⟩
    · obtain ⟨e, he, rfl⟩ := mem_map.1 (horder.mem_iff.1 hm)
      exact ⟨e, he, rfl, (hP he).1 hd⟩
    · rintro ⟨e, he, rfl, hd⟩
      exact ⟨horder.mem_iff.2 (mem_map_of_mem he), (hP he).2 hd⟩
  have hacyclic : P.Complete ↔ ¬ ∃ n, Relation.TransGen (Lists entries) n n := by
    rw [not_exists, ← hawaits]
    refine Plan.complete_iff_acyclic fun m hm d hd => ?_
    obtain ⟨e, he, rfl⟩ := mem_map.1 (horder.mem_iff.1 hm)
    exact horder.mem_iff.2 (hdeps e he d ((hP he).1 hd))
  constructor
  · refine Iff.trans ?_ (not_iff_comm.1 hacyclic.symm)
    cases h : topoSortEntries entries order with
    | error err =>
      refine iff_of_true ⟨err, rfl⟩ fun hc => ?_
      cases h.symm.trans ((hok _).2 ⟨hc, rfl⟩)
    | ok plan =>
      refine iff_of_false ?_ fun hn => hn ((hok plan).1 h).1
      rintro ⟨err, herr⟩
      cases herr
  · intro plan h
    obtain ⟨hc, rfl⟩ := (hok plan).1 h
    have hout : (P.sorted.filterMap (byName entries)).map output = P.sorted :=
      map_output_filterMap hnd fun m hm => horder.mem_iff.1 (Plan.mem_sorted.1 hm).1
    have hmem (e : CompiledEntry) : e ∈ P.sorted.filterMap (byName entries) ↔ e ∈ entries := by
      rw [mem_filterMap]
      constructor
      · rintro ⟨m, -, he⟩
        rw [byName, writeAll_apply, Option.map_id'] at he
        exact (lastAt_eq_some he).1
      · exact fun he => ⟨_, hc _ (horder.mem_iff.2 (mem_map_of_mem he)), byName_output hnd he⟩
    refine ⟨(perm_ext_iff_of_nodup (.of_map _ (hout ▸ P.sorted_nodup)) (.of_map _ hnd)).2 hmem,
      fun e he d hd => ?_⟩
    rw [hout]
    have he := (hmem e).1 he
    exact Plan.deps_before (hc _ (horder.mem_iff.2 (mem_map_of_mem he))) ((hP he).2 hd)

end Entries

/-- Entries `a`, which lists `b` twice, and `b`. -/
def pairEntries :
    List CompiledEntry := [⟨"a", fun _ => .ok .null, ["b", "b"]⟩, ⟨"b", fun _ => .ok .null, []⟩]

/-- Both entries are planned. -/
theorem topoSortEntries_pair : ∃ plan, topoSortEntries pairEntries ["a", "b"] = .ok plan ∧
    plan.Perm pairEntries :=
  ⟨_, rfl, ((topoSortEntries_correct (by decide) (.refl _) (by decide)).2 _ rfl).1⟩

section Plan

variable (lib : Lib) (source : String → Node) (outputs : List String)

lemma siblingDeps_nodup (tree : Node) : (siblingDeps tree outputs).Nodup :=
  (keepFirst_nodup _).filter _

lemma siblingDeps_perm {outputs' : List String} (h : outputs'.Perm outputs) (tree : Node) :
    siblingDeps tree outputs' = siblingDeps tree outputs :=
  filter_congr fun o _ => by simp [h.mem_iff]

lemma map_output_compileEntries : (compileEntries lib source outputs).map output = outputs := by
  rw [compileEntries, map_map]
  exact map_id _

lemma dependents_compileEntries (name : String) :
    dependents (compileEntries lib source outputs) name =
      outputs.filter fun m => name ∈ siblingDeps (source m) outputs := by
  rw [dependents, compileEntries, filter_map, map_map]
  exact map_id _

lemma byName_compileEntries (hnd : outputs.Nodup) {name : String} (h : name ∈ outputs) :
    byName (compileEntries lib source outputs) name =
      some (compileEntry lib source outputs name) := by
  have hnd : ((compileEntries lib source outputs).map output).Nodup := by
    rwa [map_output_compileEntries]
  exact byName_output hnd (mem_map_of_mem h)

/-- The sort of the entries, by output. -/
def siblingPlan (hnd : outputs.Nodup) : Plan String where
  keys := outputs
  deps name := siblingDeps (source name) outputs
  next := dependents (compileEntries lib source outputs)
  indeg := entryIndeg (compileEntries lib source outputs)
  keys_nodup := hnd
  deps_nodup _ _ := siblingDeps_nodup _ _
  next_nodup name := by
    rw [dependents_compileEntries]
    exact hnd.filter _
  mem_next n m := by simp [dependents_compileEntries]
  indeg_eq m hm := by
    have hperm : (keepFirst (siblingDeps (source m) outputs)).Perm
        (siblingDeps (source m) outputs) :=
      (List.perm_ext_iff_of_nodup (keepFirst_nodup _) (siblingDeps_nodup _ _)).2 fun _ =>
        mem_keepFirst
    rw [entryIndeg, byName_compileEntries lib source outputs hnd hm]
    simp [compileEntry, hperm.length_eq]

variable {lib source outputs}

lemma topoSortEntries_siblings (hnd : outputs.Nodup) {plan : List CompiledEntry} :
    topoSortEntries (compileEntries lib source outputs) outputs = .ok plan ↔
      (siblingPlan lib source outputs hnd).Complete ∧
        plan = (siblingPlan lib source outputs hnd).sorted.map
          (compileEntry lib source outputs) := by
  have hmap := map_output_compileEntries lib source outputs
  have hsorted : (siblingPlan lib source outputs hnd).sorted.filterMap
      (byName (compileEntries lib source outputs)) =
      (siblingPlan lib source outputs hnd).sorted.map (compileEntry lib source outputs) := by
    rw [← filterMap_eq_map]
    exact filterMap_congr fun m hm =>
      byName_compileEntries lib source outputs hnd (Plan.mem_sorted.1 hm).1
  rw [← hsorted]
  refine topoSortEntries_eq_ok (P := siblingPlan lib source outputs hnd) (by rwa [hmap])
    (by rw [hmap]; exact .refl _)
    rfl rfl fun e he d hd => ?_
  obtain ⟨m, -, rfl⟩ := mem_map.1 he
  exact hd

end Plan

namespace DecisionExpression

variable (d d' : DecisionExpression)

/-- The sort behind the evaluation plan. -/
def plan : Plan String := siblingPlan d.lib d.source d.ovars.names d.ovars.nodup

lemma plan_complete : d.plan.Complete :=
  ((topoSortEntries_siblings d.ovars.nodup).1 d.evalPlan_eq).1

lemma evalPlan_eq_map :
    d.evalPlan = d.plan.sorted.map (compileEntry d.lib d.source d.ovars.names) :=
  ((topoSortEntries_siblings d.ovars.nodup).1 d.evalPlan_eq).2

lemma map_output_evalPlan : d.evalPlan.map output = d.plan.sorted := by
  rw [evalPlan_eq_map, map_map]
  exact map_id _

lemma mem_plan_sorted {e : String} : e ∈ d.plan.sorted ↔ e ∈ d.ovars.names :=
  ⟨fun h => (Plan.mem_sorted.1 h).1, d.plan_complete e⟩

/-! ## Reading siblings -/

/-- The compiled expression of output `e` reads the sibling output `o`. -/
def ReadsSibling (e o : String) : Prop := o ∈ d.ovars.names ∧ o ≠ e ∧ o ∈ (d.source e).patched.reads

/-- Every entry runs after the siblings it reads. -/
def ReadsInOrder : Prop :=
  ∀ e ∈ d.ovars.names, ∀ o, d.ReadsSibling e o → Before (d.evalPlan.map output) o e

/-- The same expression with the outputs declared in another order. -/
structure Reordered (d d' : DecisionExpression) : Prop where
  lib : d'.lib = d.lib
  ivars : d'.ivars = d.ivars
  source : d'.source = d.source
  outputs : d'.ovars.vars.Perm d.ovars.vars

/-- On these inputs the two expressions have the same outputs, or both fail. -/
def SameOutputs (env : Env) : Prop :=
  match d.evaluateEnv env, d'.evaluateEnv env with
  | .ok out, .ok out' => ∀ v ∈ d.ovars.vars, out.getValue v.name = out'.getValue v.name
  | .error _, .error _ => True
  | _, _ => False

/-- In every order of declaration the entries run after the siblings they read,
and the outputs are the same. -/
def OrderIndependent : Prop :=
  ∀ d' : DecisionExpression, Reordered d d' → d'.ReadsInOrder ∧
    ∀ input : Filled d.ivars, d.SameOutputs d' (makeEnv d.ivars input.getValue)

variable {d d'}

lemma Reordered.names (h : Reordered d d') : d'.ovars.names.Perm d.ovars.names := h.outputs.map _

lemma Reordered.deps (h : Reordered d d') : d'.plan.deps = d.plan.deps := by
  funext e
  simp only [plan, siblingPlan, h.source, siblingDeps_perm _ h.names]

lemma Reordered.find (h : Reordered d d') (name : String) :
    d'.ovars.find name = d.ovars.find name := by
  ext v
  rw [Contract.find_eq_some, Contract.find_eq_some, h.outputs.mem_iff]

lemma Reordered.readsSibling (h : Reordered d d') {e o : String} :
    d'.ReadsSibling e o ↔ d.ReadsSibling e o := by
  rw [ReadsSibling, ReadsSibling, h.names.mem_iff, h.source]

lemma Reordered.symm (h : Reordered d d') : Reordered d' d :=
  ⟨h.lib.symm, h.ivars.symm, h.source.symm, h.outputs.symm⟩

lemma Reordered.startEnv (h : Reordered d d') : d'.startEnv = d.startEnv := by
  funext env name
  rw [DecisionExpression.startEnv, DecisionExpression.startEnv, h.find]

/-- Every order of declaration is accepted. -/
lemma exists_reordered {names : List String} (h : names.Perm d.ovars.names) :
    ∃ d', Reordered d d' ∧ d'.ovars.names = names := by
  obtain ⟨vars, rfl, hperm⟩ : ∃ vars : List DecisionVar,
      names = vars.map DecisionVar.name ∧ vars.Perm d.ovars.vars := by
    have := congrFun₂ (eq_map_comp_perm DecisionVar.name) names d.ovars.vars
    exact this.mpr h
  have hnd := h.nodup_iff.2 d.ovars.nodup
  let ovars : Contract := ⟨vars, hnd, fun v hv => d.ovars.ident v (hperm.mem_iff.1 hv)⟩
  have hcomplete : (siblingPlan d.lib d.source ovars.names hnd).Complete := by
    refine d.plan_complete.of_mem_iff (fun m => h.mem_iff) fun m _ o ho => ?_
    have hdeps : siblingDeps (d.source m) ovars.names = d.plan.deps m := siblingDeps_perm _ h _
    exact hdeps ▸ ho
  exact ⟨{ d with
    ovars
    outputs_ne := fun hnil => d.outputs_ne (List.Perm.nil_eq (hnil ▸ hperm)).symm
    disjoint := fun v hv => d.disjoint v (hperm.mem_iff.1 hv)
    evalPlan := _
    evalPlan_eq := (topoSortEntries_siblings hnd).2 ⟨hcomplete, rfl⟩ }, ⟨rfl, rfl, rfl, hperm⟩, rfl⟩

/-! ## The outputs -/

/-- A program's result only depends on the names its tree reads. -/
lemma entryValue_congr (e : String) {s t : Env} (h : ∀ x ∈ (d.source e).patched.reads, s x = t x) :
    d.entryValue (compileEntry d.lib d.source d.ovars.names e) s =
      d.entryValue (compileEntry d.lib d.source d.ovars.names e) t := by
  have hrun : (d.source e).program d.lib s = (d.source e).program d.lib t := by
    rw [Node.program, Node.program, ← evalM_eff, ← evalM_eff, evalM_congr]
    exact fun x hx => by rw [bindings, bindings, h x hx]
  simp only [entryValue, compileEntry, Program.run, hrun]

/-- The plan, as a list of assignments. -/
def assignment (d : DecisionExpression) (e : String) (env : Env) : Result (Option BlValue) :=
  some <$> d.entryValue (compileEntry d.lib d.source d.ovars.names e) env

lemma assignment_local :
    Assign.Local (fun e x => x ∈ (d.source e).patched.reads) d.assignment := fun e s t h => by
  rw [assignment, assignment, entryValue_congr e h]

lemma foldlM_evalPlan (env : Env) :
    d.evalPlan.foldlM d.step env = d.plan.sorted.foldlM (Assign.step d.assignment) env := by
  rw [evalPlan_eq_map, foldlM_map]
  congr
  funext env e
  simp only [step, Assign.step, assignment]
  cases d.entryValue (compileEntry d.lib d.source d.ovars.names e) env <;> rfl

lemma Reordered.assignment (h : Reordered d d') : d'.assignment = d.assignment := by
  funext e env
  simp only [DecisionExpression.assignment, entryValue, compileEntry, h.source, h.lib, h.find]

lemma ReadsInOrder.inOrder (h : d.ReadsInOrder) :
    Assign.InOrder (fun e x => x ∈ (d.source e).patched.reads) d.plan.sorted := by
  intro e he x hx hne hr
  rw [← map_output_evalPlan]
  exact h e (d.mem_plan_sorted.1 he) x ⟨d.mem_plan_sorted.1 hx, hne, hr⟩

/-- The final environment is the same in both orders, when there is one. -/
lemma Reordered.foldlM_eq_ok (h : Reordered d d') (hd : d.ReadsInOrder) (hd' : d'.ReadsInOrder)
    {s t : Env} : d'.evalPlan.foldlM d'.step s = .ok t ↔ d.evalPlan.foldlM d.step s = .ok t := by
  have hperm : d'.plan.sorted.Perm d.plan.sorted :=
    (perm_ext_iff_of_nodup (Plan.sorted_nodup _) (Plan.sorted_nodup _)).2 fun m => by
      rw [mem_plan_sorted, mem_plan_sorted, h.names.mem_iff]
  have hin := hd'.inOrder
  rw [h.source] at hin
  rw [foldlM_evalPlan, foldlM_evalPlan, h.assignment]
  exact Assign.foldlM_step_perm assignment_local (Plan.sorted_nodup _) hd.inOrder hin hperm

lemma Reordered.evaluateEnv_ok (h : Reordered d d') (hd : d.ReadsInOrder)
    (hd' : d'.ReadsInOrder) {env : Env} {out : Filled d.ovars}
    (hout : d.evaluateEnv env = .ok out) :
    ∃ out', d'.evaluateEnv env = .ok out' ∧
      ∀ v ∈ d.ovars.vars, out.getValue v.name = out'.getValue v.name := by
  simp only [evaluateEnv, bind_eq_ok] at hout
  obtain ⟨t, hrun, hfill⟩ := hout
  have hval := Contract.fill_eq_ok hfill
  simp only [Except.ok.injEq] at hval
  obtain ⟨out', hout', hval'⟩ := Contract.fill_ok (c := d'.ovars) (f := fun v => t v.name)
    (fun v _ => rfl) fun v hv x hx => by
      have hv := h.outputs.mem_iff.1 hv
      exact out.typed v hv x (by rw [← hval v hv, hx])
  refine ⟨out', ?_, fun v hv => ?_⟩
  · rw [evaluateEnv, h.startEnv, (h.foldlM_eq_ok hd hd').2 hrun]
    exact hout'
  · rw [Filled.getValue, Filled.getValue, ← hval v hv, hval' v (h.outputs.mem_iff.2 hv)]

lemma Reordered.sameOutputs (h : Reordered d d') (hd : d.ReadsInOrder) (hd' : d'.ReadsInOrder)
    (env : Env) : d.SameOutputs d' env := by
  unfold SameOutputs
  cases hout : d.evaluateEnv env with
  | ok out =>
    obtain ⟨out', hout', hval⟩ := h.evaluateEnv_ok hd hd' hout
    rw [hout']
    exact hval
  | error e =>
    cases hout' : d'.evaluateEnv env with
    | ok out' =>
      obtain ⟨out, hok, -⟩ := h.symm.evaluateEnv_ok hd' hd hout'
      rw [hout] at hok
      cases hok
    | error e' => trivial

/-! ## When the plan is right -/

lemma Reordered.refl (d : DecisionExpression) : Reordered d d := ⟨rfl, rfl, rfl, .refl _⟩

lemma readsInOrder_of_deeper (h : ∀ e ∈ d.ovars.names, ∀ o, d.ReadsSibling e o →
    Deeper d.plan.deps e o) : d.ReadsInOrder := by
  intro e he o ho
  rw [map_output_evalPlan]
  exact d.plan_complete.before_of_deeper ho.1 he (h e he o ho)

/-- An expression is independent of the order in which its outputs are declared
exactly when every sibling output that an entry reads has a shorter chain of
collected references below it than the entry has. -/
theorem orderIndependent_iff (d : DecisionExpression) : d.OrderIndependent ↔
    ∀ e ∈ d.ovars.names, ∀ o, d.ReadsSibling e o →
      Deeper (fun x => siblingDeps (d.source x) d.ovars.names) e o := by
  constructor
  · intro h e he o ho
    by_contra hdeep
    -- In some order the entry comes before the sibling it reads.
    obtain ⟨names, hperm, hbad⟩ := d.plan_complete.exists_order he ho.1 ho.2.1.symm hdeep
    obtain ⟨d', hd', rfl⟩ := exists_reordered hperm
    have hnext : ∀ n, d'.plan.next n = d'.plan.keys.filter (n ∈ d'.plan.deps ·) :=
      dependents_compileEntries _ _ _
    have heo := hbad d'.plan rfl hd'.deps hnext d'.plan_complete
    have hoe := (h d' hd').1 e (hd'.names.mem_iff.2 he) o (hd'.readsSibling.2 ho)
    rw [map_output_evalPlan] at hoe
    exact heo.asymm (Plan.sorted_nodup _) hoe
  · intro h d' hd'
    have hin : d'.ReadsInOrder := readsInOrder_of_deeper fun e he o ho => by
      rw [hd'.deps]
      exact h e (hd'.names.mem_iff.1 he) o (hd'.readsSibling.1 ho)
    exact ⟨hin, fun input => hd'.sameOutputs (readsInOrder_of_deeper h) hin _⟩

/-! ## A bracket index hides a sibling -/

/-- Addition of numbers is all the example needs of the library. -/
def additionLib : Lib :=
  { Lib.empty with
    fn
      | "__add", [.bl (.number x), .bl (.number y)] => .ok (.bl (.number (x + y)))
      | _, _ => callError }

/-- Two outputs: `a` is `xs[b + 1]` and `b` is `1`. -/
def lookupSource : String → Node
  | "a" => .member (.ident "xs") (.binary .add (.ident "b") (.int 1)) false
  | _ => .int 1

lemma lookup_nodup : (([⟨"a", .number⟩, ⟨"b", .number⟩] : List DecisionVar).map (·.name)).Nodup :=
  by decide

lemma lookup_ident : ∀ v ∈ ([⟨"a", .number⟩, ⟨"b", .number⟩] : List DecisionVar),
    isIdentifier v.name.toList := by
  decide

/-- The expression with the outputs declared as `a`, `b`. -/
def lookupAB : DecisionExpression where
  id := "lookup"
  name := ""
  lib := additionLib
  ivars := ⟨[⟨"xs", .list⟩], by decide, by decide⟩
  ovars := ⟨[⟨"a", .number⟩, ⟨"b", .number⟩], lookup_nodup, lookup_ident⟩
  outputs_ne := by decide
  disjoint := by decide
  source := lookupSource
  evalPlan := ["a", "b"].map (compileEntry additionLib lookupSource ["a", "b"])
  evalPlan_eq := rfl

/-- The expression with the outputs declared as `b`, `a`. -/
def lookupBA : DecisionExpression :=
  { lookupAB with
    ovars := ⟨[⟨"b", .number⟩, ⟨"a", .number⟩], by decide, by decide⟩
    outputs_ne := by decide
    disjoint := by decide
    evalPlan := ["b", "a"].map (compileEntry additionLib lookupSource ["b", "a"])
    evalPlan_eq := rfl }

/-- The input `xs = [10, 20]`. -/
def lookupInput : Filled lookupAB.ivars where
  val name := if name = "xs" then some (.list [.number 10, .number 20]) else none
  typed := by
    intro v hv x hx
    simp only [lookupAB, List.mem_singleton] at hv
    subst hv
    cases hx
    rfl

/-- Declared first, `a` reads the zero value of `b`; declared last, it reads `1`. -/
theorem lookup_depends_on_order : Reordered lookupAB lookupBA ∧
    (lookupAB.evaluate lookupInput).map (·.getValue "a") = .ok (.number 10) ∧
    (lookupBA.evaluate lookupInput).map (·.getValue "a") = .ok (.number 20) ∧
    ¬ lookupAB.OrderIndependent := by
  have hr : Reordered lookupAB lookupBA := ⟨rfl, rfl, rfl, List.Perm.swap _ _ _⟩
  refine ⟨hr, by with_unfolding_all rfl, by with_unfolding_all rfl, fun h => ?_⟩
  have hba := (h lookupAB (.refl _)).1 "a" (by decide) "b" ⟨by decide, by decide, by decide⟩
  have hab : Before ["a", "b"] "a" "b" := List.Sublist.refl _
  exact hab.asymm (by decide) hba

end DecisionExpression

end Blkit
