import Blkit.Data.Fallible
import Blkit.Text.Basic
import Blkit.Value.Basic
import Mathlib.Data.List.Nodup

/-!
# Handles and contracts

A decision node declares its inputs and outputs as structs of typed handles.  A
`Contract` is what `reflectContract` accepts: the variables in field order, with
pairwise distinct names.  A `Filled` contract is a struct of such handles at
evaluation time: every handle is either unset or holds a value of its own type,
so a handle with a value of another type cannot be built.
-/

namespace Blkit

open Fallible List

/-- `decisionVar`: a variable of a contract, with the Go type its handle carries. -/
structure DecisionVar where
  name : String
  elem : Kind
deriving DecidableEq, Repr

/-- The variables `reflectContract` returns without a problem: their names are
identifiers and pairwise distinct. -/
structure Contract where
  vars : List DecisionVar
  nodup : (vars.map DecisionVar.name).Nodup
  ident : ∀ v ∈ vars, isIdentifier v.name.toList

namespace Contract

/-- The contract without variables. -/
def empty : Contract := ⟨[], .nil, nofun⟩

variable (c : Contract)

/-- The variables' names, in field order. -/
def names : List String := c.vars.map DecisionVar.name

variable {v : DecisionVar}

lemma mem_names (h : v ∈ c.vars) : v.name ∈ c.names := mem_map_of_mem h

/-- A name belongs to one variable. -/
lemma eq_of_name_eq {w : DecisionVar} (hv : v ∈ c.vars) (hw : w ∈ c.vars)
    (h : v.name = w.name) : v = w :=
  inj_on_of_nodup_map c.nodup hv hw h

/-- The variable of a name. -/
def find (name : String) : Option DecisionVar := c.vars.find? (·.name = name)

variable {c} {name : String}

lemma find_eq_some : c.find name = some v ↔ v ∈ c.vars ∧ v.name = name := by
  constructor
  · intro h
    exact ⟨mem_of_find?_eq_some h, by simpa using find?_some h⟩
  · rintro ⟨hv, rfl⟩
    cases h : c.find v.name with
    | none => simpa using find?_eq_none.1 h v hv
    | some w => rw [c.eq_of_name_eq (mem_of_find?_eq_some h) hv (by simpa using find?_some h)]

lemma find_eq_none : c.find name = none ↔ name ∉ c.names := by
  simp [find, names]

end Contract

/-- A struct value of a contract: for each variable the value of its handle,
`none` when the handle is unset. -/
structure Filled (c : Contract) where
  val : String → Option BlValue
  typed : ∀ v ∈ c.vars, ∀ x, val v.name = some x → x.kind = v.elem

namespace Filled

variable {c : Contract}

/-- The struct with every handle unset. -/
def empty (c : Contract) : Filled c where
  val _ := none
  typed _ _ _ h := nomatch h

/-- `Handle.getValue`: an unset handle reads as null. -/
def getValue (s : Filled c) (name : String) : BlValue := (s.val name).getD .null

/-- The error text of `Handle.setValue`.  The structs filled here are fresh ones,
whose handles were never stamped with a field name, so the quoted name is empty. -/
def assignError (v : DecisionVar) (x : BlValue) : GoError :=
  .typeError "evaluate" ("field \"\": cannot assign " ++ typeName x.blType ++ " to " ++
    typeName v.elem.blType)

/-- `Handle.setValue` on the handle of `v`: a type assertion to the handle's own
type, which a null fails unless the handle is a `Handle[BlNull]`. -/
def setValue (s : Filled c) {v : DecisionVar} (hv : v ∈ c.vars) (x : BlValue) : Result (Filled c) :=
  if h : x.kind = v.elem then
    .ok { val := Function.update s.val v.name (some x)
          typed := by
            intro w hw y hy
            by_cases hn : w.name = v.name
            · obtain rfl := c.eq_of_name_eq hw hv hn
              rw [Function.update_self] at hy
              rw [← Option.some.inj hy, h]
            · rw [Function.update_of_ne hn] at hy
              exact s.typed w hw y hy }
  else .error (assignError v x)

variable {v : DecisionVar} {x : BlValue}

lemma setValue_of_kind (s : Filled c) (hv : v ∈ c.vars) (h : x.kind = v.elem) :
    ∃ s', s.setValue hv x = .ok s' ∧ s'.val = Function.update s.val v.name (some x) := by
  simp [setValue, h]

end Filled

/-- One round of the loop below: write the value computed for a field, if there
is one, to the field's handle. -/
def Filled.write {c : Contract} (value : DecisionVar → Result (Option BlValue)) (s : Filled c)
    (v : {v // v ∈ c.vars}) : Result (Filled c) :=
  value v.1 >>= fun
    | none => .ok s
    | some x => s.setValue v.2 x

/-- The loop every node ends (or starts) with: walk the fields of a struct in
order, compute a field's value, and write it to the field's handle.  A field
without a value keeps its handle unset; the first failure ends the loop. -/
def Contract.fill (c : Contract) (value : DecisionVar → Result (Option BlValue)) :
    Result (Filled c) :=
  c.vars.attach.foldlM (Filled.write value) (Filled.empty c)

namespace Contract

variable {c : Contract} {g : DecisionVar → Result (Option BlValue)}

variable {f : DecisionVar → Option BlValue}

private theorem fill_loop_ok
    (l : List {v // v ∈ c.vars}) (hl : (l.map (·.1.name)).Nodup)
    (h : ∀ v ∈ l, g v.1 = .ok (f v.1))
    (hk : ∀ v ∈ l, ∀ x, f v.1 = some x → x.kind = v.1.elem) (s : Filled c)
    (hs : ∀ v ∈ l, s.val v.1.name = none) :
    ∃ s', l.foldlM (Filled.write g) s = .ok s' ∧ (∀ v ∈ l, s'.val v.1.name = f v.1) ∧
      ∀ n, n ∉ l.map (·.1.name) → s'.val n = s.val n := by
  induction l generalizing s with
  | nil => exact ⟨s, rfl, by simp, by simp⟩
  | cons v l ih =>
    rw [map_cons, nodup_cons] at hl
    have hvl : ∀ w ∈ l, w.1.name ≠ v.1.name := fun w hw e =>
      hl.1 (e ▸ mem_map_of_mem (f := (·.1.name)) hw)
    -- The first field's round leaves a struct that holds `f v` there and is
    -- unchanged elsewhere.
    obtain ⟨s₁, he₁, hv₁, hn₁⟩ : ∃ s₁, s.write g v = .ok s₁ ∧ s₁.val v.1.name = f v.1 ∧
        ∀ n, n ≠ v.1.name → s₁.val n = s.val n := by
      cases hf : f v.1 with
      | none => exact ⟨s, by simp [Filled.write, h v, hf], hs v (by simp), fun _ _ => rfl⟩
      | some x =>
        obtain ⟨s₁, he₁, hs₁⟩ := s.setValue_of_kind v.2 (hk v (by simp) x hf)
        exact ⟨s₁, by simp [Filled.write, h v, hf, he₁], by simp [hs₁],
          fun n hn => by rw [hs₁, Function.update_of_ne hn]⟩
    obtain ⟨s', he, hv, hn⟩ := ih hl.2 (fun w hw => h w (by simp [hw]))
      (fun w hw => hk w (by simp [hw])) s₁
      (fun w hw => by rw [hn₁ _ (hvl w hw)]; exact hs w (by simp [hw]))
    refine ⟨s', by rw [foldlM_cons, he₁]; exact he, ?_, ?_⟩
    · rintro w (_ | ⟨_, hw⟩)
      · rw [hn _ hl.1, hv₁]
      · exact hv w hw
    · intro n hn'
      rw [map_cons, mem_cons, not_or] at hn'
      rw [hn n hn'.2, hn₁ n hn'.1]

/-- When every field has a g of its own type (or none), the struct is filled
with exactly these values. -/
lemma fill_ok (h : ∀ v ∈ c.vars, g v = .ok (f v))
    (hk : ∀ v ∈ c.vars, ∀ x, f v = some x → x.kind = v.elem) :
    ∃ s, c.fill g = .ok s ∧ ∀ v ∈ c.vars, s.val v.name = f v := by
  have hnd : (c.vars.attach.map (·.1.name)).Nodup := by
    have := c.nodup
    rwa [← attach_map_subtype_val c.vars, map_map] at this
  obtain ⟨s, he, hv, -⟩ := fill_loop_ok (g := g) (f := f) c.vars.attach hnd
    (fun v _ => h v.1 v.2) (fun v _ => hk v.1 v.2) (Filled.empty c) (fun _ _ => rfl)
  exact ⟨s, he, fun v hv' => hv ⟨v, hv'⟩ (mem_attach _ _)⟩

private theorem fill_loop_error (l : List {v // v ∈ c.vars}) (s : Filled c)
    (h : ∃ v ∈ l, (∃ e, g v.1 = .error e) ∨ ∃ x, g v.1 = .ok (some x) ∧ x.kind ≠ v.1.elem) :
    ∃ e, l.foldlM (Filled.write g) s = .error e := by
  induction l generalizing s with
  | nil => simp at h
  | cons v l ih =>
    rw [foldlM_cons]
    cases hw : s.write g v with
    | error e => exact ⟨e, rfl⟩
    | ok s₁ =>
      refine ih s₁ ?_
      obtain ⟨w, _ | ⟨_, hwl⟩, hw'⟩ := h
      · rcases hw' with ⟨e, he⟩ | ⟨x, hx, hk⟩
        · simp [Filled.write, he] at hw
        · simp [Filled.write, hx, Filled.setValue, hk] at hw
      · exact ⟨w, hwl, hw'⟩

/-- A field whose g cannot be computed, or is of another type than its
handle, makes the whole loop fail. -/
lemma fill_error (h : ∃ v ∈ c.vars, (∃ e, g v = .error e) ∨
      ∃ x, g v = .ok (some x) ∧ x.kind ≠ v.elem) :
    ∃ e, c.fill g = .error e := by
  obtain ⟨v, hv, h⟩ := h
  exact fill_loop_error _ _ ⟨⟨v, hv⟩, mem_attach _ _, h⟩

/-- The loop only depends on the values of the struct's own fields. -/
lemma fill_congr {g' : DecisionVar → Result (Option BlValue)}
    (h : ∀ v ∈ c.vars, g v = g' v) : c.fill g = c.fill g' := by
  unfold fill
  generalize Filled.empty c = s
  induction c.vars.attach generalizing s with
  | nil => rfl
  | cons v l ih =>
    rw [foldlM_cons, foldlM_cons, Filled.write, h v.1 v.2, ← Filled.write]
    exact bind_congr fun s => ih s

/-- What a filled struct holds: every field's g, all of their own types. -/
lemma fill_eq_ok {s : Filled c} (h : c.fill g = .ok s) :
    ∀ v ∈ c.vars, g v = .ok (s.val v.name) := by
  have hok : ∀ v ∈ c.vars, ∃ o, g v = .ok o ∧ ∀ x, o = some x → x.kind = v.elem := by
    intro v hv
    by_contra hbad
    obtain ⟨e, he⟩ := fill_error (g := g) ⟨v, hv, by
      cases hval : g v with
      | error e => exact .inl ⟨e, rfl⟩
      | ok o =>
        simp only [hval, Except.ok.injEq, exists_eq_left', not_forall] at hbad
        obtain ⟨x, rfl, hk⟩ := hbad
        exact .inr ⟨x, rfl, hk⟩⟩
    rw [h] at he
    cases he
  choose! f hf using hok
  obtain ⟨s', hs', hval⟩ := fill_ok (fun v hv => (hf v hv).1) (fun v hv => (hf v hv).2)
  cases h.symm.trans hs'
  intro v hv
  rw [hval v hv, (hf v hv).1]

end Contract

/-- `inputFromMap`: write the named values into a fresh struct.  A variable the
map does not mention stays unset. -/
def inputFromMap (c : Contract) (vals : String → Option BlValue) : Result (Filled c) :=
  c.fill fun v => .ok (vals v.name)

/-- `outputToMap`: every handle of the struct, an unset one as null. -/
def outputToMap {c : Contract} (s : Filled c) : String → Option BlValue := fun name =>
  if name ∈ c.names then some (s.getValue name) else none

/-! ## Environments and programs -/

/-- The environment a program runs against: the value of each name it declares. -/
abbrev Env := String → Option BlValue

/-- A compiled program as the nodes use it: `expr.Run` followed by `asBl`, or the
text of the run-time error. -/
abbrev Program := Env → Except String BlValue

/-- Run a program; a run-time error becomes a `TypeError`. -/
def Program.run (p : Program) (env : Env) : Result BlValue :=
  match p env with
  | .ok v => .ok v
  | .error e => .error (.typeError "evaluate" e)

/-- `nodeLabel`: what an error calls the node. -/
def nodeLabel (id name fallback : String) : String :=
  if id ≠ "" then id else if name ≠ "" then name else fallback

/-- `makeEnv`: the typed environment struct a program runs against.  A value of
another type than its field is not copied, so the field keeps its zero value. -/
def makeEnv (c : Contract) (vals : String → BlValue) : Env := fun name =>
  (c.find name).map fun v => if (vals v.name).kind = v.elem then vals v.name else v.elem.zero

variable {c : Contract}

lemma makeEnv_of_mem (vals : String → BlValue) {v : DecisionVar}
    (hv : v ∈ c.vars) : makeEnv c vals v.name =
      some (if (vals v.name).kind = v.elem then vals v.name else v.elem.zero) := by
  simp [makeEnv, Contract.find_eq_some.2 ⟨hv, rfl⟩]

/-- An environment only depends on the values of its own variables. -/
lemma makeEnv_congr {f g : String → BlValue}
    (h : ∀ v ∈ c.vars, f v.name = g v.name) : makeEnv c f = makeEnv c g := by
  funext name
  cases hv : c.find name with
  | none => simp [makeEnv, hv]
  | some v => simp [makeEnv, hv, h v (Contract.find_eq_some.1 hv).1]

end Blkit
