import Blkit.Decision.Handle
import Blkit.Value.Equal
import Mathlib.Algebra.BigOperators.Group.List.Basic

/-!
# Decision tables

A decision table runs its compiled input cells to find the matching rules and
combines their output cells by its hit policy.  The first part is
`decision_table.go`; the second part is what the hit policies are for, stated
over the matching rules alone, where an output may always be null and two
results differ when they do not *agree*.

The two part ways on null: a null cannot be written to a typed output handle,
and the `Any` policy compares with the language's equality, under which a value
with a null in it does not equal itself.
-/

namespace Blkit

open Fallible List

/-- How matching rules combine. -/
inductive HitPolicy where
  | unique | first | priority | any | collect | ruleOrder | outputOrder
deriving DecidableEq, Repr

/-- The policies that return one rule's outputs. -/
def HitPolicy.single : HitPolicy → Bool
  | .unique | .first | .priority | .any => true
  | .collect | .ruleOrder | .outputOrder => false

/-- How a `Collect` table reduces its values. -/
inductive Aggregation where
  | sum | min | max | count
deriving DecidableEq, Repr

/-- `compiledRule`: an input cell is `none` for the wildcard, an output cell is
`none` when it is empty. -/
structure CompiledRule where
  id : String
  inputs : List (Option Program)
  outputs : List (Option Program)

/-- A table as `NewDecisionTable` leaves it.  Output programs yield values of the
language, in which a dictionary never has a key twice. -/
structure DecisionTable where
  id : String
  name : String
  hitPolicy : HitPolicy
  agg : Option Aggregation
  ivars : Contract
  ovars : Contract
  outputs_ne : ovars.vars ≠ []
  compiled : List CompiledRule
  wellKeyed : ∀ r ∈ compiled, ∀ p, some p ∈ r.outputs → ∀ env v, p env = .ok v → v.WellKeyed

/-! ## Evaluation -/

/-- `ruleMatches`: every input cell that is not a wildcard is true. -/
def ruleMatches (env : Env) : List (Option Program) → Result Bool
  | [] => .ok true
  | none :: cells => ruleMatches env cells
  | some prog :: cells => do
    match ← prog.run env with
    | .boolean true => ruleMatches env cells
    | .boolean false => .ok false
    | .null => .ok false
    | _ => .error (.typeError "evaluate" "input predicate did not yield a boolean")

/-- The matching rules in declaration order; the first failing cell ends the search. -/
def matchingRules (env : Env) : List CompiledRule → Result (List CompiledRule)
  | [] => .ok []
  | r :: rs => do
    let ok ← ruleMatches env r.inputs
    let ms ← matchingRules env rs
    .ok (if ok then r :: ms else ms)

/-- The value of a rule's output cell; an empty cell is null. -/
def CompiledRule.eval (env : Env) (oi : Nat) (r : CompiledRule) : Result BlValue :=
  match (r.outputs[oi]?).join with
  | none => .ok .null
  | some prog => prog.run env

/-- One round of `aggregate` on a number: the running sum, and the best value so far. -/
def aggregateNumber : Aggregation → ℚ × Option ℚ → ℚ → ℚ × Option ℚ
  | .sum, (acc, best), d => (acc + d, best)
  | .min, (acc, best), d => (acc, if best.all (fun b => decide (d < b)) then some d else best)
  | .max, (acc, best), d => (acc, if best.all (fun b => decide (b < d)) then some d else best)
  | .count, s, _ => s

/-- A value as a number, for an aggregation. -/
def asNumber : BlValue → Result ℚ
  | .number d => .ok d
  | _ => .error (.typeError "aggregate" "non-numeric value in Sum/Min/Max aggregation")

/-- `aggregate`: reduce the values of a `Collect` table. -/
def aggregate (values : List BlValue) (agg : Aggregation) : Result BlValue :=
  if agg = .count then .ok (.number values.length)
  else if values = [] then .ok (.number 0)
  else do
    let s ← values.foldlM (fun s v => aggregateNumber agg s <$> asNumber v) (0, none)
    .ok (.number (if agg = .sum then s.1 else s.2.getD 0))

namespace DecisionTable

variable (d : DecisionTable)

/-- The error of an `Any` table whose matching rules disagree. -/
def anyError : GoError :=
  .text (nodeLabel d.id d.name "DecisionTable" ++
    ": any hit policy but matching rules produced different outputs")

/-- The error of a `Unique` table with `n` matching rules. -/
def uniqueError (n : Nat) : GoError :=
  .text (nodeLabel d.id d.name "DecisionTable" ++ ": " ++ toString n ++
    " rules matched under a unique hit policy")

/-- The loop of the `Any` policy: every further match equals the first one. -/
def checkAny (env : Env) (oi : Nat) (first : BlValue) : List CompiledRule → Result Unit
  | [] => .ok ()
  | r :: rs => do
    let v ← r.eval env oi
    if eqTrue (first.equal v) then checkAny env oi first rs else .error d.anyError

/-- `combineOutput`: one output's value from the matching rules. -/
def combineOutput (env : Env) (oi : Nat) (ms : List CompiledRule) : Result BlValue :=
  match d.hitPolicy with
  | .unique | .first | .priority =>
    match ms with
    | [] => .ok .null
    | r :: _ => r.eval env oi
  | .any =>
    match ms with
    | [] => .ok .null
    | r :: rs => do
      let first ← r.eval env oi
      d.checkAny env oi first rs
      .ok first
  | .collect => do
    let values ← ms.mapM (CompiledRule.eval env oi)
    match d.agg with
    | none => .ok (.list values)
    | some agg => aggregate values agg
  | .ruleOrder | .outputOrder => do
    let values ← ms.mapM (CompiledRule.eval env oi)
    .ok (.list values)

/-- The position of an output among the output fields. -/
def column (v : DecisionVar) : Nat := d.ovars.vars.idxOf v

/-- `Evaluate` from the point where the environment is built. -/
def evaluateEnv (env : Env) : Result (Filled d.ovars) := do
  let ms ← matchingRules env d.compiled
  if d.hitPolicy = .unique ∧ 1 < ms.length then .error (d.uniqueError ms.length)
  else d.ovars.fill fun v => some <$> d.combineOutput env (d.column v) ms

/-- `Evaluate`. -/
def evaluate (input : Filled d.ivars) : Result (Filled d.ovars) :=
  d.evaluateEnv (makeEnv d.ivars input.getValue)

/-! ## The hit policies over the set of matches -/

/-- What an aggregation is to compute. -/
def aggregated (values : List BlValue) : Aggregation → Result BlValue
  | .count => .ok (.number values.length)
  | .sum => do .ok (.number (← values.mapM asNumber).sum)
  | .min => do .ok (.number ((← values.mapM asNumber).min?.getD 0))
  | .max => do .ok (.number ((← values.mapM asNumber).max?.getD 0))

/-- The value an output is to have, given the matching rules: the first match's
under a single-hit policy (null without a match), the common value under `Any`,
all of them in rule order otherwise. -/
def expectedOutput (env : Env) (oi : Nat) (ms : List CompiledRule) : Result BlValue :=
  match d.hitPolicy with
  | .unique | .first | .priority => (ms.head?.map (CompiledRule.eval env oi)).getD (.ok .null)
  | .any => do
    match ← ms.mapM (CompiledRule.eval env oi) with
    | [] => .ok .null
    | v :: vs => if vs.all v.agree then .ok v else .error d.anyError
  | .collect => do
    let values ← ms.mapM (CompiledRule.eval env oi)
    match d.agg with
    | none => .ok (.list values)
    | some agg => aggregated values agg
  | .ruleOrder | .outputOrder => do
    let values ← ms.mapM (CompiledRule.eval env oi)
    .ok (.list values)

/-- An output may hold null or a value of its own type. -/
def writable (v : DecisionVar) (x : BlValue) : Result BlValue :=
  if x.isNull ∨ x.kind = v.elem then .ok x else .error (Filled.assignError v x)

/-- The name and value an output is to have. -/
def referenceEntry (env : Env) (ms : List CompiledRule) (v : DecisionVar) :
    Result (String × BlValue) := do
  let x ← d.expectedOutput env (d.column v) ms
  let x ← writable v x
  .ok (v.name, x)

/-- The outputs a table is to have on an environment, by output name. -/
def reference (env : Env) : Result (List (String × BlValue)) := do
  let ms ← matchingRules env d.compiled
  if d.hitPolicy = .unique ∧ 1 < ms.length then .error (d.uniqueError ms.length)
  else d.ovars.vars.mapM (d.referenceEntry env ms)

/-- The table does what its hit policy is for: it fails when the reference does,
and otherwise returns the reference's outputs. -/
def FollowsPolicy (env : Env) : Prop :=
  match d.evaluateEnv env, d.reference env with
  | .ok out, .ok expected => ∀ p ∈ expected, out.getValue p.1 = p.2
  | .error _, .error _ => True
  | _, _ => False

/-! ## Aggregation -/

private theorem foldlM_aggregateNumber (agg : Aggregation) (values : List BlValue)
    (s : ℚ × Option ℚ) :
    values.foldlM (fun s v => aggregateNumber agg s <$> asNumber v) s =
      (fun ns => ns.foldl (aggregateNumber agg) s) <$> values.mapM asNumber := by
  induction values generalizing s with
  | nil => rfl
  | cons v values ih =>
    rw [foldlM_cons, mapM_cons]
    cases asNumber v with
    | error e => rfl
    | ok q =>
      rw [map_ok, ok_bind, ok_bind, ih]
      cases values.mapM asNumber <;> rfl

private theorem foldl_sum (ns : List ℚ) (s : ℚ × Option ℚ) :
    ns.foldl (aggregateNumber .sum) s = (s.1 + ns.sum, s.2) := by
  induction ns generalizing s with
  | nil => simp
  | cons n ns ih => simp [ih, aggregateNumber, add_assoc]

/-- The loops of the minimum and of the maximum. -/
private theorem foldl_best {agg : Aggregation} {best : ℚ → ℚ → ℚ}
    (hstep : ∀ a b n, aggregateNumber agg (a, some b) n = (a, some (best b n)))
    (ns : List ℚ) (a b : ℚ) :
    ns.foldl (aggregateNumber agg) (a, some b) = (a, some (ns.foldl best b)) := by
  induction ns generalizing b with
  | nil => rfl
  | cons n ns ih => rw [foldl_cons, foldl_cons, hstep, ih]

private theorem aggregateNumber_min (a b n : ℚ) :
    aggregateNumber .min (a, some b) n = (a, some (min b n)) := by
  rcases lt_or_ge n b with h | h
  · simp [aggregateNumber, h, min_eq_right h.le]
  · simp [aggregateNumber, min_eq_left h, not_lt.2 h]

private theorem aggregateNumber_max (a b n : ℚ) :
    aggregateNumber .max (a, some b) n = (a, some (max b n)) := by
  rcases lt_or_ge b n with h | h
  · simp [aggregateNumber, h, max_eq_right h.le]
  · simp [aggregateNumber, max_eq_left h, not_lt.2 h]

/-- The loop of `aggregate` computes the aggregation it is named for. -/
lemma aggregate_eq (values : List BlValue) (agg : Aggregation) :
    aggregate values agg = aggregated values agg := by
  cases agg with
  | count => rfl
  | sum =>
    cases values with
    | nil => rfl
    | cons v values =>
      simp only [aggregate, aggregated, foldlM_aggregateNumber, foldl_sum]
      cases (v :: values).mapM asNumber <;> simp
  | min | max =>
    cases values with
    | nil => rfl
    | cons v values =>
      simp only [aggregate, aggregated, foldlM_aggregateNumber, mapM_cons]
      cases asNumber v with
      | error e => simp
      | ok n =>
        cases values.mapM asNumber with
        | error e => simp
        | ok ns =>
          have hmin : aggregateNumber .min (0, none) n = (0, some n) := rfl
          have hmax : aggregateNumber .max (0, none) n = (0, some n) := rfl
          simp only [ok_bind, map_ok, foldl_cons, hmin, hmax, foldl_best aggregateNumber_min,
            foldl_best aggregateNumber_max, min?_cons', max?_cons']
          rfl

/-! ## One output -/

variable {d} {env : Env} {oi : Nat} {ms : List CompiledRule}

variable {rs : List CompiledRule} {vs : List BlValue}

private theorem checkAny_of_mapM_ok {first : BlValue}
    (h : rs.mapM (CompiledRule.eval env oi) = .ok vs) :
    d.checkAny env oi first rs =
      if vs.all (fun v => eqTrue (first.equal v)) then .ok () else .error d.anyError := by
  induction rs generalizing vs with
  | nil =>
    cases h
    rfl
  | cons r rs ih =>
    rw [mapM_cons, bind_eq_ok] at h
    obtain ⟨v, hv, h⟩ := h
    rw [bind_eq_ok] at h
    obtain ⟨vs', hvs, h⟩ := h
    cases h
    rw [checkAny, hv, ok_bind, ih hvs]
    by_cases hq : eqTrue (first.equal v) <;> simp [hq]

private theorem checkAny_of_mapM_error (first : BlValue)
    (h : ∃ e, rs.mapM (CompiledRule.eval env oi) = .error e) :
    ∃ e, d.checkAny env oi first rs = .error e := by
  rw [mapM_eq_error] at h
  induction rs with
  | nil => simp at h
  | cons r rs ih =>
    rw [checkAny]
    cases hv : r.eval env oi with
    | error e => exact ⟨e, rfl⟩
    | ok v =>
      have hrs : ∃ r' ∈ rs, ∃ e, r'.eval env oi = .error e := by
        obtain ⟨r', _ | ⟨_, hr⟩, e, he⟩ := h
        · simp [hv] at he
        · exact ⟨r', hr, e, he⟩
      rw [ok_bind]
      split
      · exact ih hrs
      · exact ⟨_, rfl⟩

/-- The value an `Any` table expects can be compared with itself. -/
def SelfEqual (d : DecisionTable) (ms : List CompiledRule) (x : BlValue) : Prop :=
  d.hitPolicy = .any → 1 < ms.length → eqTrue (x.equal x)

/-- Every policy but `Any` computes an output as expected. -/
lemma combineOutput_eq (h : d.hitPolicy ≠ .any) :
    d.combineOutput env oi ms = d.expectedOutput env oi ms := by
  unfold combineOutput expectedOutput
  cases hp : d.hitPolicy with
  | any => exact absurd hp h
  | collect => simp only [aggregate_eq]
  | unique | first | priority => cases ms <;> rfl
  | ruleOrder | outputOrder => rfl

variable {r : CompiledRule} {v : BlValue}

section Any

variable (hp : d.hitPolicy = .any) (hv : r.eval env oi = .ok v)
  (hvs : rs.mapM (CompiledRule.eval env oi) = .ok vs)

include hp hv hvs

/-- An `Any` table on a non-empty list of matches whose cells all have values. -/
private theorem combineOutput_any_cons : d.combineOutput env oi (r :: rs) =
      if vs.all (fun w => eqTrue (v.equal w)) then .ok v else .error d.anyError := by
  simp only [combineOutput, hp, hv, ok_bind, checkAny_of_mapM_ok hvs]
  split <;> rfl

private theorem expectedOutput_any_cons :
    d.expectedOutput env oi (r :: rs) = if vs.all v.agree then .ok v else .error d.anyError := by
  simp only [expectedOutput, hp, mapM_cons, hv, hvs, ok_bind]

end Any

lemma CompiledRule.wellKeyed_of_eval (hr : r ∈ d.compiled)
    (h : r.eval env oi = .ok v) : v.WellKeyed := by
  unfold CompiledRule.eval at h
  split at h
  · cases h
    trivial
  · rename_i prog hprog
    have hmem : some prog ∈ r.outputs := by
      rw [Option.join_eq_some_iff] at hprog
      exact mem_of_getElem? hprog
    unfold Program.run at h
    split at h
    · cases h
      exact d.wellKeyed r hr prog hmem env v ‹_›
    · cases h

/-- A failure the policy asks for happens. -/
lemma combineOutput_of_error (hms : ∀ r ∈ ms, r ∈ d.compiled)
    (h : ∃ e, d.expectedOutput env oi ms = .error e) :
    ∃ e, d.combineOutput env oi ms = .error e := by
  by_cases hp : d.hitPolicy = .any
  · cases ms with
    | nil => simp [expectedOutput, hp] at h
    | cons r rs =>
      cases hv : r.eval env oi with
      | error e => exact ⟨e, by simp [combineOutput, hp, hv]⟩
      | ok v =>
        cases hvs : rs.mapM (CompiledRule.eval env oi) with
        | error e =>
          obtain ⟨e', he⟩ := checkAny_of_mapM_error (d := d) v ⟨e, hvs⟩
          exact ⟨e', by simp [combineOutput, hp, hv, he]⟩
        | ok vs =>
          rw [expectedOutput_any_cons hp hv hvs] at h
          rw [combineOutput_any_cons hp hv hvs]
          -- Rules that are not the same are not equal either.
          have hne : ¬ vs.all (fun w => eqTrue (v.equal w)) := by
            intro hall
            have hk := CompiledRule.wellKeyed_of_eval (hms r (by simp)) hv
            have : vs.all v.agree := all_eq_true.2 fun w hw =>
              (Bool.and_eq_true_iff.1 (BlValue.equal_eq v w hk ▸ all_eq_true.1 hall w hw)).1
            simp [this] at h
          exact ⟨_, if_neg hne⟩
  · rwa [combineOutput_eq hp]

variable {x : BlValue}

/-- An expected value is computed, unless it is one an `Any` table cannot compare
with itself. -/
lemma combineOutput_of_ok (hms : ∀ r ∈ ms, r ∈ d.compiled)
    (h : d.expectedOutput env oi ms = .ok x) :
    (SelfEqual d ms x → d.combineOutput env oi ms = .ok x) ∧
      (¬ SelfEqual d ms x → ∃ e, d.combineOutput env oi ms = .error e) := by
  by_cases hp : d.hitPolicy = .any
  · cases ms with
    | nil =>
      have hx : .null = x := by simpa [expectedOutput, hp] using h
      simp [combineOutput, hp, SelfEqual, hx]
    | cons r rs =>
      obtain ⟨v, hv, vs, hvs⟩ : ∃ v, r.eval env oi = .ok v ∧
          ∃ vs, rs.mapM (CompiledRule.eval env oi) = .ok vs := by
        cases hv : r.eval env oi with
        | error e => simp [expectedOutput, hp, hv] at h
        | ok v =>
          cases hvs : rs.mapM (CompiledRule.eval env oi) with
          | error e => simp [expectedOutput, hp, hv, hvs] at h
          | ok vs => exact ⟨v, rfl, vs, rfl⟩
      rw [expectedOutput_any_cons hp hv hvs] at h
      rw [combineOutput_any_cons hp hv hvs]
      split at h
      case isFalse => cases h
      case isTrue hagree =>
        cases h
        have hk : x.WellKeyed := CompiledRule.wellKeyed_of_eval (hms r (by simp)) hv
        have hlen : rs.length = vs.length := (mapM_eq_ok.1 hvs).length_eq
        -- Against agreeing values, every comparison answers as `x` against itself.
        have hall : vs.all (fun w => eqTrue (x.equal w)) ↔ SelfEqual d (r :: rs) x := by
          rw [all_eq_true] at hagree ⊢
          simp only [SelfEqual, hp, length_cons, hlen, forall_const]
          constructor
          · intro hall hlt
            obtain ⟨w, hw⟩ := exists_mem_of_length_pos (l := vs) (by omega)
            have hboth := BlValue.equal_eq x w hk ▸ hall w hw
            exact (Bool.and_eq_true_iff.1 hboth).2
          · intro hself w hw
            rw [BlValue.equal_eq x w hk, hagree w hw, Bool.true_and]
            exact hself (by have := length_pos_of_mem hw; omega)
        constructor
        · intro hs
          exact if_pos (hall.2 hs)
        · intro hs
          exact ⟨_, if_neg fun h => hs (hall.1 h)⟩
  · rw [combineOutput_eq hp, h]
    simp [SelfEqual, hp]

/-! ## The whole table -/

lemma mem_compiled_of_matchingRules (h : matchingRules env rs = .ok ms) : ∀ r ∈ ms, r ∈ rs := by
  induction rs generalizing ms with
  | nil =>
    cases h
    simp
  | cons r rs ih =>
    simp only [matchingRules, bind_eq_ok] at h
    obtain ⟨ok, -, ms', hms, h⟩ := h
    cases h
    intro r' hr'
    split at hr'
    · rcases mem_cons.1 hr' with rfl | hr'
      · simp
      · exact mem_cons_of_mem _ (ih hms r' hr')
    · exact mem_cons_of_mem _ (ih hms r' hr')

/-- No output meets a null it cannot hold or compare.  Under a policy that returns
one rule's outputs, some rule matches and the first match's cell for an output is
not null, unless the output is declared as null; and when two rules match under
`Any`, the first match's value equals itself. -/
def NullSafe (d : DecisionTable) (env : Env) : Prop :=
  ∀ ms, matchingRules env d.compiled = .ok ms → d.hitPolicy.single → ∀ v ∈ d.ovars.vars,
    (v.elem ≠ .null → ∃ r, ms.head? = some r ∧ r.eval env (d.column v) ≠ .ok .null) ∧
    (d.hitPolicy = .any → 1 < ms.length → ∀ r x, ms.head? = some r →
      r.eval env (d.column v) = .ok x → eqTrue (x.equal x))

/-- A single-hit policy expects the first match's value, or null without a match. -/
lemma expectedOutput_of_single (hs : d.hitPolicy.single) (h : d.expectedOutput env oi ms = .ok x) :
    ms = [] ∧ x = .null ∨ ∃ r, ms.head? = some r ∧ r.eval env oi = .ok x := by
  cases ms with
  | nil =>
    refine .inl ⟨rfl, ?_⟩
    cases hp : d.hitPolicy <;> simp_all [expectedOutput, HitPolicy.single]
  | cons r rs =>
    refine .inr ⟨r, rfl, ?_⟩
    cases hp : d.hitPolicy with
    | any =>
      simp only [expectedOutput, hp, mapM_cons, bind_eq_ok] at h
      obtain ⟨_, ⟨v, hv, vs, -, hvs⟩, h⟩ := h
      cases hvs
      split at h
      case h_1 hnil => cases hnil
      case h_2 hcons =>
        obtain ⟨rfl, rfl⟩ := cons.inj hcons
        split at h
        · cases h
          exact hv
        · cases h
    | unique | first | priority => simpa [expectedOutput, hp] using h
    | collect | ruleOrder | outputOrder => simp [hp, HitPolicy.single] at hs

/-- The other policies never expect null: they return a list or a number. -/
lemma expectedOutput_ne_null (hs : ¬ d.hitPolicy.single)
    (h : d.expectedOutput env oi ms = .ok x) : x ≠ .null := by
  rintro rfl
  cases hp : d.hitPolicy with
  | collect =>
    simp only [expectedOutput, hp, bind_eq_ok] at h
    obtain ⟨values, -, h⟩ := h
    split at h
    · cases h
    · rename_i agg _
      cases agg <;> simp [aggregated, bind_eq_ok] at h
  | ruleOrder | outputOrder => simp [expectedOutput, hp, bind_eq_ok] at h
  | unique | first | priority | any => simp [hp, HitPolicy.single] at hs

variable {f : DecisionVar → BlValue}

/-- Where the policy expects a value for every output, no output meets a null it
cannot hold or compare exactly when every expected null is declared as one and
every expected value can be compared. -/
private theorem nullSafe_iff (hm : matchingRules env d.compiled = .ok ms)
    (hf : ∀ v ∈ d.ovars.vars, d.expectedOutput env (d.column v) ms = .ok (f v)) :
    d.NullSafe env ↔ ∀ v ∈ d.ovars.vars, (f v = .null → v.elem = .null) ∧ SelfEqual d ms (f v) := by
  constructor
  · intro h v hv
    by_cases hs : d.hitPolicy.single
    · obtain ⟨hnull, hself⟩ := h ms hm hs v hv
      rcases expectedOutput_of_single hs (hf v hv) with ⟨rfl, hx⟩ | ⟨r, hr, hx⟩
      · exact ⟨fun _ => by_contra fun hne => by simpa using hnull hne, fun _ hlt => by simp at hlt⟩
      · refine ⟨fun hn => by_contra fun hne => ?_, fun hp hlt => hself hp hlt r _ hr hx⟩
        obtain ⟨r', hr', hne'⟩ := hnull hne
        cases hr.symm.trans hr'
        exact hne' (hn ▸ hx)
    · refine ⟨fun hn => absurd hn (expectedOutput_ne_null hs (hf v hv)), fun hp => ?_⟩
      simp [hp, HitPolicy.single] at hs
  · intro h ms' hm' hs v hv
    cases hm.symm.trans hm'
    obtain ⟨hnull, hself⟩ := h v hv
    rcases expectedOutput_of_single hs (hf v hv) with ⟨rfl, hx⟩ | ⟨r, hr, hx⟩
    · exact ⟨fun hne => absurd (hnull hx) hne, fun _ hlt => by simp at hlt⟩
    · refine ⟨fun hne => ⟨r, hr, fun hn => hne (hnull ?_)⟩, fun hp hlt r' x hr' hx' => ?_⟩
      · exact Except.ok.inj (hx.symm.trans hn)
      · cases hr.symm.trans hr'
        cases hx.symm.trans hx'
        exact hself hp hlt

private theorem referenceEntry_eq_ok {v : DecisionVar} {p : String × BlValue} :
    d.referenceEntry env ms v = .ok p ↔ p.1 = v.name ∧
      d.expectedOutput env (d.column v) ms = .ok p.2 ∧ (p.2.isNull ∨ p.2.kind = v.elem) := by
  obtain ⟨n, y⟩ := p
  cases hx : d.expectedOutput env (d.column v) ms with
  | error e => simp [referenceEntry, hx]
  | ok x =>
    simp only [referenceEntry, hx, ok_bind, writable]
    by_cases hw : x.isNull ∨ x.kind = v.elem
    · rw [if_pos hw]
      constructor
      · rintro ⟨⟩
        exact ⟨rfl, rfl, hw⟩
      · rintro ⟨rfl, ⟨⟩, -⟩
        rfl
    · rw [if_neg hw]
      constructor
      · rintro ⟨⟩
      · rintro ⟨-, ⟨⟩, hw'⟩
        exact absurd hw' hw

/-- What `Evaluate` writes to the outputs. -/
private abbrev written (d : DecisionTable) (env : Env) (ms : List CompiledRule) :
    Result (Filled d.ovars) :=
  d.ovars.fill fun v => some <$> d.combineOutput env (d.column v) ms

/-- One output that is expected to be null and is not declared so, whose value is
of another type, or which cannot be compared, fails the evaluation. -/
private theorem written_error (hms : ∀ r ∈ ms, r ∈ d.compiled) {v : DecisionVar}
    (hv : v ∈ d.ovars.vars)
    (hx : d.expectedOutput env (d.column v) ms = .ok x)
    (hbad : ¬ (SelfEqual d ms x ∧ x.kind = v.elem)) : ∃ e, written d env ms = .error e := by
  refine Contract.fill_error ⟨v, hv, ?_⟩
  by_cases hs : SelfEqual d ms x
  · exact .inr ⟨x, by rw [(combineOutput_of_ok hms hx).1 hs]; rfl, fun hk => hbad ⟨hs, hk⟩⟩
  · obtain ⟨e, he⟩ := (combineOutput_of_ok hms hx).2 hs
    exact .inl ⟨e, by rw [he]; rfl⟩

private theorem written_error_of_referenceEntry (hms : ∀ r ∈ ms, r ∈ d.compiled)
    {v : DecisionVar} (hv : v ∈ d.ovars.vars)
    (h : ∃ e, d.referenceEntry env ms v = .error e) : ∃ e, written d env ms = .error e := by
  cases hx : d.expectedOutput env (d.column v) ms with
  | error e =>
    obtain ⟨e', he⟩ := combineOutput_of_error hms ⟨e, hx⟩
    exact Contract.fill_error ⟨v, hv, .inl ⟨e', by rw [he]; rfl⟩⟩
  | ok x =>
    refine written_error hms hv hx fun ⟨_, hk⟩ => ?_
    obtain ⟨e, h⟩ := h
    simp [referenceEntry, hx, writable, hk] at h

/-- Outputs that all meet no null they cannot hold or compare are written as
expected. -/
private theorem written_ok (hms : ∀ r ∈ ms, r ∈ d.compiled)
    (hf : ∀ v ∈ d.ovars.vars, d.expectedOutput env (d.column v) ms = .ok (f v) ∧
      SelfEqual d ms (f v) ∧ (f v).kind = v.elem) :
    ∃ out, written d env ms = .ok out ∧ ∀ v ∈ d.ovars.vars, out.getValue v.name = f v := by
  obtain ⟨out, hout, hval⟩ := Contract.fill_ok (c := d.ovars)
    (g := fun v => some <$> d.combineOutput env (d.column v) ms) (f := fun v => some (f v))
    (fun v hv => by
      rw [(combineOutput_of_ok hms (hf v hv).1).1 (hf v hv).2.1]
      rfl)
    (fun v hv x hx => by
      cases hx
      exact (hf v hv).2.2)
  exact ⟨out, hout, fun v hv => by rw [Filled.getValue, hval v hv]; rfl⟩

/-- A table follows its hit policy exactly when the policy itself asks for a
failure, or no output meets a null it cannot hold or compare. -/
theorem followsPolicy_iff (d : DecisionTable) (env : Env) :
    d.FollowsPolicy env ↔ (∃ e, d.reference env = .error e) ∨ d.NullSafe env := by
  cases hm : matchingRules env d.compiled with
  | error e => simp [FollowsPolicy, evaluateEnv, reference, hm]
  | ok ms =>
    have hms := mem_compiled_of_matchingRules hm
    by_cases hu : d.hitPolicy = .unique ∧ 1 < ms.length
    · simp [FollowsPolicy, evaluateEnv, reference, hm, hu]
    have hev : d.evaluateEnv env = written d env ms := by
      simp only [evaluateEnv, hm, ok_bind, if_neg hu]
    have href : d.reference env = d.ovars.vars.mapM (d.referenceEntry env ms) := by
      simp only [reference, hm, ok_bind, if_neg hu]
    cases hr : d.reference env with
    | error e =>
      obtain ⟨v, hv, h⟩ := mapM_eq_error.1 ⟨e, href ▸ hr⟩
      obtain ⟨e', he⟩ := written_error_of_referenceEntry hms hv h
      simp [FollowsPolicy, hev, he, hr]
    | ok xs =>
      have hxs : d.ovars.vars.mapM (d.referenceEntry env ms) = .ok xs := href ▸ hr
      have hentry : ∀ v ∈ d.ovars.vars, ∃ x, d.expectedOutput env (d.column v) ms = .ok x ∧
          (x.isNull ∨ x.kind = v.elem) := fun v hv => by
        obtain ⟨p, -, hp⟩ := exists_result_of_mem hxs v hv
        exact ⟨p.2, (referenceEntry_eq_ok.1 hp).2⟩
      choose! f hf using hentry
      rw [nullSafe_iff hm fun v hv => (hf v hv).1]
      simp only [reduceCtorEq, exists_false, false_or]
      constructor
      · intro hfollows v hv
        by_contra hbad
        obtain ⟨e, he⟩ := written_error hms hv (hf v hv).1 fun ⟨hs, hk⟩ =>
          hbad ⟨fun hnull => by rw [← hk, hnull]; rfl, hs⟩
        simp [FollowsPolicy, hev, he, hr] at hfollows
      · intro hsafe
        obtain ⟨out, hout, hval⟩ := written_ok hms (f := f) fun v hv => by
          refine ⟨(hf v hv).1, (hsafe v hv).2, (hf v hv).2.elim (fun hn => ?_) fun hk => hk⟩
          rw [BlValue.isNull_iff] at hn
          rw [(hsafe v hv).1 hn, hn]
          rfl
        simp only [FollowsPolicy, hev, hout, hr]
        intro p hp
        obtain ⟨v, hv, hpv⟩ := exists_source_of_mem hxs p hp
        obtain ⟨hname, hx, -⟩ := referenceEntry_eq_ok.1 hpv
        rw [hname, hval v hv]
        exact Except.ok.inj ((hf v hv).1.symm.trans hx)

/-- A table that succeeds sets every output. -/
lemma isSome_of_evaluateEnv {out : Filled d.ovars} (h : d.evaluateEnv env = .ok out) :
    ∀ v ∈ d.ovars.vars, (out.val v.name).isSome := by
  intro v hv
  simp only [evaluateEnv, bind_eq_ok] at h
  obtain ⟨ms, -, h⟩ := h
  split at h
  · cases h
  · have hval := Contract.fill_eq_ok h v hv
    cases hc : d.combineOutput env (d.column v) ms with
    | error e => simp [hc] at hval
    | ok x =>
      rw [hc, map_ok, Except.ok.injEq] at hval
      simp [← hval]

/-- A `First` table with one rule, `age < 18` giving `"minor"`. -/
def minorTable : DecisionTable where
  id := "band"
  name := ""
  hitPolicy := .first
  agg := none
  ivars := ⟨[⟨"age", .number⟩], by decide, by decide⟩
  ovars := ⟨[⟨"band", .string⟩], by decide, by decide⟩
  outputs_ne := by simp
  compiled := [⟨"", [some fun env => .ok (match env "age" with
    | some (.number age) => .boolean (decide (age < 18))
    | _ => .null)], [some fun _ => .ok (.string "minor")]⟩]
  wellKeyed := by
    simp only [List.mem_singleton, forall_eq, Option.some.injEq]
    rintro _ _ ⟨⟩
    trivial

/-- The environment of `minorTable` at age 30. -/
def adult : Env := makeEnv minorTable.ivars fun _ => .number 30

/-- No rule matches an adult: the output is to be null, and the table fails. -/
theorem minorTable_adult : minorTable.evaluateEnv adult =
        .error (.typeError "evaluate" "field \"\": cannot assign null to string") ∧
      minorTable.reference adult = .ok [("band", .null)] ∧
      ¬ minorTable.FollowsPolicy adult := by
  have hev : minorTable.evaluateEnv adult =
      .error (.typeError "evaluate" "field \"\": cannot assign null to string") := by
    rfl
  have href : minorTable.reference adult = .ok [("band", .null)] := by
    rfl
  refine ⟨hev, href, ?_⟩
  rw [FollowsPolicy, hev, href]
  exact fun h => h

/-! ## The order of the rules -/

/-- The table with its rules in another order. -/
def reordered (d : DecisionTable) {rules : List CompiledRule} (h : d.compiled.Perm rules) :
    DecisionTable :=
  { d with compiled := rules, wellKeyed := fun r hr => d.wellKeyed r (h.mem_iff.2 hr) }

variable {rs' : List CompiledRule}

private theorem matchingRules_perm (h : rs.Perm rs')
    (hm : matchingRules env rs = .ok ms) : ∃ ms', matchingRules env rs' = .ok ms' ∧
    ms.Perm ms' := by
  -- the loop is a collecting one, that then drops the rules without a match
  have heq : ∀ rs, matchingRules env rs = (fun ps => (ps.filter (·.1)).map (·.2)) <$>
      rs.mapM fun r => (·, r) <$> ruleMatches env r.inputs := by
    intro rs
    induction rs with
    | nil => rfl
    | cons r rs ih =>
      rw [matchingRules, ih, mapM_cons]
      rcases ruleMatches env r.inputs with _ | _ | _ <;>
        cases rs.mapM fun r => (·, r) <$> ruleMatches env r.inputs <;> rfl
  rw [heq, map_eq_ok] at hm
  obtain ⟨ps, hps, rfl⟩ := hm
  obtain ⟨ps', hps', hperm⟩ := mapM_perm h hps
  exact ⟨_, by rw [heq, hps', map_ok], (hperm.filter _).map _⟩

private theorem aggregated_perm {vs' : List BlValue} {agg : Aggregation} (h : vs.Perm vs')
    (ha : aggregated vs agg = .ok x) : aggregated vs' agg = .ok x := by
  cases agg with
  | count =>
    rw [aggregated, ← h.length_eq]
    exact ha
  | sum | min | max =>
    rw [aggregated, bind_eq_ok] at ha ⊢
    obtain ⟨ns, hns, hx⟩ := ha
    obtain ⟨ns', hns', hperm⟩ := mapM_perm h hns
    refine ⟨ns', hns', hx ▸ ?_⟩
    have hmin : ns'.min? = ns.min? := Option.ext fun n => by
      simp only [min?_eq_some_iff, hperm.mem_iff]
    have hmax : ns'.max? = ns.max? := Option.ext fun n => by
      simp only [max?_eq_some_iff, hperm.mem_iff]
    simp only [hperm.sum_eq, hmin, hmax]

variable {out : Filled d.ovars}

private theorem fill_perm (hp : d.hitPolicy = .collect) (ha : d.agg.isSome) (h : rs.Perm rs')
    (hout : (matchingRules env rs >>= fun ms =>
      d.ovars.fill fun v => some <$> d.combineOutput env (d.column v) ms) = .ok out) :
    (matchingRules env rs' >>= fun ms =>
      d.ovars.fill fun v => some <$> d.combineOutput env (d.column v) ms) = .ok out := by
  obtain ⟨agg, ha⟩ := Option.isSome_iff_exists.1 ha
  rw [bind_eq_ok] at hout ⊢
  obtain ⟨ms, hms, hfill⟩ := hout
  obtain ⟨ms', hms', hperm⟩ := matchingRules_perm h hms
  refine ⟨ms', hms', hfill ▸ Contract.fill_congr fun v hv => ?_⟩
  obtain ⟨x, hx, -⟩ := map_eq_ok.1 (Contract.fill_eq_ok hfill v hv)
  have hx' : d.combineOutput env (d.column v) ms' = .ok x := by
    simp only [combineOutput, hp, ha, aggregate_eq, bind_eq_ok] at hx ⊢
    obtain ⟨vs, hvs, hx⟩ := hx
    obtain ⟨vs', hvs', hperm⟩ := mapM_perm hperm hvs
    exact ⟨vs', hvs', aggregated_perm hperm hx⟩
  rw [hx, hx']

/-- Under `Collect` with an aggregation the order of the rules does not matter: in
any other order the table returns the same outputs, and fails on the same inputs. -/
theorem collect_reordered (hp : d.hitPolicy = .collect) (ha : d.agg.isSome)
    {rules : List CompiledRule} (h : d.compiled.Perm rules) (input : Filled d.ivars) :
    ((d.reordered h).evaluate input).toOption = (d.evaluate input).toOption := by
  have hiff {o : Result (Filled d.ovars)} {a} : o.toOption = some a ↔ o = .ok a := by
    cases o <;> simp [Except.toOption]
  have hu (n : Nat) : ¬ (d.hitPolicy = .unique ∧ 1 < n) := by simp [hp]
  have hc (env : Env) (oi : Nat) (ms : List CompiledRule) :
      (d.reordered h).combineOutput env oi ms = d.combineOutput env oi ms := by
    simp only [combineOutput, reordered, hp]
  refine Option.ext fun out => hiff.trans (Iff.trans ?_ hiff.symm)
  simp only [evaluate, evaluateEnv, hc]
  simp only [reordered, hu, if_false]
  exact ⟨fill_perm hp ha h.symm, fill_perm hp ha h⟩

/-- A table that counts its two rules, in both orders. -/
def twoHits : DecisionTable :=
  { minorTable with
    hitPolicy := .collect, agg := some .count
    ovars := ⟨[⟨"hits", .number⟩], by decide, by decide⟩, outputs_ne := by simp
    compiled := [⟨"a", [], []⟩, ⟨"b", [none], []⟩], wellKeyed := by simp }

/-- Two rules that both match, in the other order. -/
theorem twoHits_reordered : ((twoHits.reordered (.swap _ _ _)).evaluate (.empty _)).toOption =
    (twoHits.evaluate (.empty _)).toOption :=
  collect_reordered rfl rfl (.swap _ _ _) _

end DecisionTable

end Blkit
