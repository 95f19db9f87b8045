import Blkit.Expr.Eval
import Blkit.Expr.Patch

/-!
# `for` expressions

`buildForExpr` lowers a `for` to nested `map`s, and flattens at every level but the
innermost one.  The reference is a list comprehension: one element for each
combination of elements, in lexicographic order of the iterators, which is the
value of the body under that combination.  `flatten` splices in nested lists at
every depth, so lists that the body produces are lost with two or more iterators.
-/

namespace Blkit

open Fallible List

/-! ## `flattenFn` -/

/-- The value is a list. -/
def BlValue.isList : BlValue → Bool
  | .list _ => true
  | _ => false

lemma flattenItem_of_not_isList {v : BlValue} (h : v.isList = false) : flattenItem v = [v] := by
  cases v <;> first | rfl | cases h

lemma flattenItems_append (xs ys : List BlValue) :
    flattenItems (xs ++ ys) = flattenItems xs ++ flattenItems ys := by
  induction xs with
  | nil => rfl
  | cons x xs ih => rw [cons_append, flattenItems, flattenItems, ih, append_assoc]

variable {xs : List BlValue}

lemma flattenItems_of_not_isList (h : ∀ x ∈ xs, x.isList = false) : flattenItems xs = xs := by
  induction xs with
  | nil => rfl
  | cons x xs ih =>
    rw [flattenItems, flattenItem_of_not_isList (h x (by simp)),
      ih fun y hy => h y (mem_cons_of_mem x hy), singleton_append]

mutual

/-- Nothing that is left is a list. -/
theorem not_isList_of_mem_flattenItems : (xs : List BlValue) →
    ∀ x ∈ flattenItems xs, x.isList = false
  | [], _, h => nomatch h
  | y :: ys, x, h => by
    rw [flattenItems, mem_append] at h
    exact h.elim (not_isList_of_mem_flattenItem y x) (not_isList_of_mem_flattenItems ys x)

theorem not_isList_of_mem_flattenItem (v : BlValue) : ∀ x ∈ flattenItem v, x.isList = false := by
  cases v with
  | list xs => exact not_isList_of_mem_flattenItems xs
  | _ => simp [flattenItem, BlValue.isList]

end

/-! ## The lowering -/

/-- `iterator`: a name and the list it runs over. -/
structure Iterator where
  name : String
  list : Node

/-- `__wraplist(map(__items(list), let name = #; inner))`. -/
def mapItems (it : Iterator) (inner : Node) : Node :=
  .fn "__wraplist" [.builtin "map" [.fn "__items" [it.list],
    .predicate (.letIn it.name .pointer inner)]]

/-- `buildForExpr`, as the tree of the text it builds. -/
def buildForExpr : Iterator → List Iterator → Node → Node
  | it, [], body => mapItems it body
  | it, it' :: rest, body => .fn "flatten" [mapItems it (buildForExpr it' rest body)]

/-- The patcher on an iterator's list. -/
def Iterator.patch (it : Iterator) (k : Nat) : Iterator × Nat :=
  (⟨it.name, (it.list.patch k).1⟩, (it.list.patch k).2)

/-- The patcher on a clause of iterators. -/
def patchIterators : List Iterator → Nat → List Iterator × Nat
  | [], k => ([], k)
  | it :: rest, k =>
    let it := it.patch k
    let rest := patchIterators rest it.2
    (it.1 :: rest.1, rest.2)

lemma patch_mapItems (it : Iterator) (inner : Node) (k : Nat) : (mapItems it inner).patch k =
      (mapItems (it.patch k).1 (inner.patch (it.patch k).2).1, (inner.patch (it.patch k).2).2) :=
  rfl

/-- The patcher keeps the shape of a lowered `for`. -/
lemma patch_buildForExpr (it : Iterator) (rest : List Iterator) (body : Node) (k : Nat) :
    (buildForExpr it rest body).patch k =
      (buildForExpr (it.patch k).1 (patchIterators rest (it.patch k).2).1
        (body.patch (patchIterators rest (it.patch k).2).2).1,
        (body.patch (patchIterators rest (it.patch k).2).2).2) := by
  induction rest generalizing it k with
  | nil => exact patch_mapItems it body k
  | cons it' rest ih =>
    have hstep : (buildForExpr it (it' :: rest) body).patch k =
        (.fn "flatten" [((mapItems it (buildForExpr it' rest body)).patch k).1],
          ((mapItems it (buildForExpr it' rest body)).patch k).2) := rfl
    rw [hstep, patch_mapItems, ih]
    rfl

/-! ## The reference -/

/-- What an expression is evaluated in: the names in scope and the element `#`. -/
structure Frame where
  names : Bindings
  element : Option VmValue

/-- The frame of one round of an iterator. -/
def Frame.bind (c : Frame) (name : String) (x : BlValue) : Frame :=
  ⟨Function.update c.names name (some (.bl x)), some (.bl x)⟩

section Reference

variable (lib : Lib)

/-- The value of a tree in a frame. -/
def Frame.value (c : Frame) (n : Node) : Except String BlValue :=
  VmValue.asBl <$> eval lib n c.names c.element

/-- What an iterator runs over. -/
def Iterator.elements (it : Iterator) (c : Frame) : Except String (List BlValue) := do
  match coerceRowList (← c.value lib it.list) with
  | some xs => .ok xs
  | none => .error "type error in iterate: not a list"

/-- All combinations of elements, the last iterator running fastest.  A later
iterator's list may depend on the earlier iterators. -/
def combinations : List Iterator → Frame → Except String (List Frame)
  | [], c => .ok [c]
  | it :: rest, c => do
    let xs ← it.elements lib c
    let css ← xs.mapM fun x => combinations rest (c.bind it.name x)
    .ok css.flatten

/-- One element for each combination: the body's value. -/
def forValues (iters : List Iterator) (body : Node) (c : Frame) : Except String (List BlValue) := do
  let cs ← combinations lib iters c
  cs.mapM fun c => c.value lib body

/-- The lowered expression yields these values (and fails when they cannot be
computed). -/
def Yields (n : Node) (c : Frame) (values : Except String (List BlValue)) : Prop :=
  ∀ v, c.value lib n = .ok v ↔ ∃ vs, values = .ok vs ∧ v = .list vs

end Reference

section Values

variable {lib : Lib}

lemma forValues_nil (body : Node) (c : Frame) :
    forValues lib [] body c = (fun v => [v]) <$> c.value lib body := by
  rw [forValues, combinations, ok_bind, mapM_cons]
  cases c.value lib body <;> rfl

variable {it : Iterator} {rest : List Iterator} {body : Node} {c : Frame}

lemma forValues_cons_eq_ok {vs : List BlValue} : forValues lib (it :: rest) body c = .ok vs ↔
      ∃ xs vss, it.elements lib c = .ok xs ∧
        xs.mapM (fun x => forValues lib rest body (c.bind it.name x)) = .ok vss ∧
        vs = vss.flatten := by
  simp only [forValues, combinations, bind_assoc, ok_bind]
  rw [bind_eq_ok]
  simp only [mapM_flatten_eq_ok, exists_and_left]

/-- One level of the lowering: collect the inner values over the elements. -/
lemma eval_mapItems (it : Iterator) (inner : Node) (c : Frame) :
    eval lib (mapItems it inner) c.names c.element = it.elements lib c >>= fun xs =>
      (fun vs => .bl (.list vs)) <$> xs.mapM fun x => (c.bind it.name x).value lib inner := by
  have hitems : eval lib (.fn "__items" [it.list]) c.names c.element =
      it.elements lib c >>= fun xs => .ok (.slice (xs.map .bl)) := by
    rw [eval_fn_one, Iterator.elements, Frame.value]
    cases eval lib it.list c.names c.element with
    | error e => rfl
    | ok v =>
      rw [ok_bind, map_ok, ok_bind, callFn_items, items]
      cases coerceRowList v.asBl <;> rfl
  have hclosure (x : BlValue) : eval lib (.letIn it.name .pointer inner) c.names (some (.bl x)) =
      eval lib inner (c.bind it.name x).names (c.bind it.name x).element := rfl
  rw [mapItems, eval_fn_one, eval_builtin_closure, hitems]
  cases it.elements lib c with
  | error e => rfl
  | ok xs =>
    simp only [ok_bind, callBuiltin_map, mapM_map, Function.comp_def, hclosure]
    simp only [Frame.value, ← map_mapM]
    cases xs.mapM fun x =>
      eval lib inner (c.bind it.name x).names (c.bind it.name x).element <;> rfl

lemma value_mapItems (it : Iterator) (inner : Node) (c : Frame) :
    c.value lib (mapItems it inner) = it.elements lib c >>= fun xs =>
      .list <$> xs.mapM fun x => (c.bind it.name x).value lib inner := by
  rw [Frame.value, eval_mapItems]
  cases it.elements lib c with
  | error e => rfl
  | ok xs => cases hvs : xs.mapM fun x => (c.bind it.name x).value lib inner <;> simp [hvs]

lemma value_flatten_mapItems (it : Iterator) (inner : Node) (c : Frame) :
    c.value lib (.fn "flatten" [mapItems it inner]) = it.elements lib c >>= fun xs =>
      (fun vs => .list (flattenItems vs)) <$>
        xs.mapM fun x => (c.bind it.name x).value lib inner := by
  rw [Frame.value, eval_fn_one, eval_mapItems]
  cases it.elements lib c with
  | error e => rfl
  | ok xs =>
    cases hvs : xs.mapM fun x => (c.bind it.name x).value lib inner with
    | error e => simp [hvs]
    | ok vs => simp [hvs, callFn_flatten]

/-- What is left of the values after the flattening: nothing is flattened with one
iterator. -/
def flattenWith (rest : List Iterator) (vs : List BlValue) : List BlValue :=
  if rest.isEmpty then vs else flattenItems vs

lemma flattenItems_flattenWith (rest : List Iterator) (vs : List BlValue) :
    flattenItems (flattenWith rest vs) = flattenItems vs := by
  rw [flattenWith]
  split
  · rfl
  · exact flattenItems_of_not_isList (not_isList_of_mem_flattenItems vs)

/-- Flattening the inner results is flattening all values. -/
lemma flattenItems_map_list (rest : List Iterator) (vss : List (List BlValue)) :
    flattenItems (vss.map fun vs => .list (flattenWith rest vs)) = flattenItems vss.flatten := by
  induction vss with
  | nil => rfl
  | cons vs vss ih =>
    rw [map_cons, flattenItems, flattenItem, flattenItems_flattenWith, ih, flatten_cons,
      flattenItems_append]

/-- What a lowered `for` computes, by induction on the number of iterators. -/
lemma value_buildForExpr {v : BlValue} : c.value lib (buildForExpr it rest body) = .ok v ↔
      ∃ vs, forValues lib (it :: rest) body c = .ok vs ∧ v = .list (flattenWith rest vs) := by
  induction rest generalizing it c v with
  | nil =>
    simp only [buildForExpr, value_mapItems, bind_eq_ok, map_eq_ok, forValues_cons_eq_ok,
      forValues_nil, ← map_mapM]
    constructor
    · rintro ⟨xs, hxs, vs, hvs, rfl⟩
      refine ⟨vs, ⟨xs, _, hxs, ⟨vs, hvs, rfl⟩, ?_⟩, rfl⟩
      rw [← flatMap_def, flatMap_singleton']
    · rintro ⟨_, ⟨xs, _, hxs, ⟨vs, hvs, rfl⟩, rfl⟩, rfl⟩
      refine ⟨xs, hxs, vs, hvs, ?_⟩
      rw [← flatMap_def, flatMap_singleton']
      rfl
  | cons it' rest ih =>
    have hinner (x : BlValue) (w : BlValue) := @ih it' (c.bind it.name x) w
    simp only [buildForExpr, value_flatten_mapItems, bind_eq_ok, map_eq_ok,
      mapM_eq_ok_of_forall hinner, forValues_cons_eq_ok]
    constructor
    · rintro ⟨xs, hxs, _, ⟨vss, hvss, rfl⟩, rfl⟩
      refine ⟨_, ⟨xs, vss, hxs, hvss, rfl⟩, ?_⟩
      rw [flattenItems_map_list]
      rfl
    · rintro ⟨_, ⟨xs, vss, hxs, hvss, rfl⟩, rfl⟩
      refine ⟨xs, hxs, _, ⟨vss, hvss, rfl⟩, ?_⟩
      rw [flattenItems_map_list]
      rfl

end Values

/-! ## The result of a `for` -/

/-- A parsed `for` expression; `parseIterators` finds at least one iterator. -/
structure ForLoop where
  first : Iterator
  rest : List Iterator
  body : Node

namespace ForLoop

/-- The tree that is handed to the patcher. -/
def tree (F : ForLoop) : Node := buildForExpr F.first F.rest F.body

/-- The iterators. -/
def iters (F : ForLoop) : List Iterator := F.first :: F.rest

/-- The same expression with its lists and its body patched. -/
def compiled (F : ForLoop) : ForLoop :=
  let first := F.first.patch 0
  let rest := patchIterators F.rest first.2
  ⟨first.1, rest.1, (F.body.patch rest.2).1⟩

lemma patched_tree (F : ForLoop) : F.tree.patched = F.compiled.tree := by
  rw [tree, Node.patched, patch_buildForExpr]
  rfl

lemma rest_compiled_eq_nil (F : ForLoop) : F.compiled.rest = [] ↔ F.rest = [] := by
  obtain ⟨it, rest, body⟩ := F
  cases rest <;> simp [compiled, patchIterators]

variable {lib : Lib} {F : ForLoop} {c : Frame}

/-- The values are yielded when the flattening leaves them alone. -/
lemma yields_tree_iff : Yields lib F.tree c (forValues lib F.iters F.body c) ↔
    ∀ vs, forValues lib F.iters F.body c = .ok vs → flattenWith F.rest vs = vs := by
  have hval : ∀ v, c.value lib F.tree = .ok v ↔
      ∃ vs, forValues lib F.iters F.body c = .ok vs ∧ v = .list (flattenWith F.rest vs) :=
    fun v => value_buildForExpr
  simp only [Yields, hval]
  constructor
  · intro h vs hvs
    obtain ⟨vs', hvs', heq⟩ := (h _).1 ⟨vs, hvs, rfl⟩
    cases hvs.symm.trans hvs'
    exact BlValue.list.inj heq
  · intro h v
    refine exists_congr fun vs => and_congr_right fun hvs => ?_
    rw [h vs hvs]

/-- The values hold no list: some round fails, or none produces a list. -/
lemma not_isList_values_iff {cs : List Frame} (hcs : combinations lib F.iters c = .ok cs) :
    (∀ vs, forValues lib F.iters F.body c = .ok vs → ∀ v ∈ vs, v.isList = false) ↔
      (∃ f ∈ cs, ∃ e, f.value lib F.body = .error e) ∨
        ∀ f ∈ cs, ∀ v, f.value lib F.body = .ok v → v.isList = false := by
  rw [← mapM_eq_error, forValues, hcs, ok_bind]
  cases hvs : cs.mapM fun f => f.value lib F.body with
  | error e => simp
  | ok vs =>
    simp only [Except.ok.injEq, forall_eq', reduceCtorEq, exists_const, false_or]
    constructor
    · intro h f hf v hv
      obtain ⟨w, hw, hfw⟩ := exists_result_of_mem hvs f hf
      cases hv.symm.trans hfw
      exact h v hw
    · intro h v hv
      obtain ⟨f, hf, hfv⟩ := exists_source_of_mem hvs v hv
      exact h f hf v hfv

/-- A `for` yields exactly the body's value for each combination of elements, in
lexicographic order, when it has one iterator, or a list or the body fails for some
combination, or no combination makes the body a list; and in no other case. -/
theorem yields_iff (lib : Lib) (F : ForLoop) (c : Frame) :
    Yields lib F.tree.patched c (forValues lib F.compiled.iters F.compiled.body c) ↔
      F.rest = [] ∨ ∀ cs, combinations lib F.compiled.iters c = .ok cs →
        (∃ f ∈ cs, ∃ e, f.value lib F.compiled.body = .error e) ∨
          ∀ f ∈ cs, ∀ v, f.value lib F.compiled.body = .ok v → v.isList = false := by
  rw [patched_tree, yields_tree_iff, ← rest_compiled_eq_nil]
  generalize F.compiled = F
  by_cases hrest : F.rest = []
  · simp [hrest, flattenWith]
  · have hflat (vs : List BlValue) : flattenWith F.rest vs = vs ↔ ∀ v ∈ vs, v.isList = false := by
      rw [flattenWith, if_neg (by simpa using hrest)]
      exact ⟨fun h x hx => not_isList_of_mem_flattenItems vs x (h.symm ▸ hx),
        flattenItems_of_not_isList⟩
    simp only [hflat, hrest, false_or]
    constructor
    · exact fun h cs hcs => (not_isList_values_iff hcs).1 h
    · intro h vs hvs
      obtain ⟨cs, hcs, -⟩ := bind_eq_ok.1 hvs
      exact (not_isList_values_iff hcs).2 (h cs hcs) vs hvs

/-- `for x in xs, y in ys return [x, y]`. -/
def pairs : ForLoop where
  first := ⟨"x", .ident "xs"⟩
  rest := [⟨"y", .ident "ys"⟩]
  body := .array [.ident "x", .ident "y"]

/-- The frame with `xs = [1]` and `ys = [2]`. -/
def pairsFrame : Frame where
  names := bindings fun
    | "xs" => some (.list [.number 1])
    | "ys" => some (.list [.number 2])
    | _ => none
  element := none

/-- There is one pair, and the lowered expression yields its two numbers instead. -/
theorem pairs_flattened : forValues .empty pairs.compiled.iters pairs.compiled.body pairsFrame =
      .ok [.list [.number 1, .number 2]] ∧
    pairsFrame.value .empty pairs.tree.patched = .ok (.list [.number 1, .number 2]) ∧
    ¬ Yields .empty pairs.tree.patched pairsFrame
      (forValues .empty pairs.compiled.iters pairs.compiled.body pairsFrame) := by
  refine ⟨rfl, rfl, fun h => ?_⟩
  obtain ⟨vs, hvs, heq⟩ := (h (.list [.number 1, .number 2])).1 rfl
  cases hvs
  cases heq

end ForLoop

end Blkit
