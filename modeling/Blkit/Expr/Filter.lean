import Blkit.Expr.Kleene

/-!
# Row filters

A predicate over the columns of a table can be put in brackets, `t[p]`, or given to
the methods `filter` and `filterOut`.  The patcher recognises a bracket as a filter
by the top node of the predicate, and then turns the predicate's bare names into
columns of the row, both after the predicate itself has been patched.  The
reference reads every bare name from the row and keeps the rows whose predicate is
true.
-/

namespace Blkit

open Fallible Node List Function

/-! ## Expressions over a row -/

/-- A bare name that stands for a column: not the row variable `item`, and not one
of the engine's own names. -/
structure ColumnName where
  name : String
  ne_item : name ≠ "item"
  ne_internal : name.toList.take 2 ≠ ['_', '_']

/-- The literals. -/
inductive Literal where
  | int (value : Int)
  | float (value : ℚ)
  | string (value : String)
  | bool (value : Bool)
  | null

/-- The names that are no library functions: those the lowering relies on, the
comparisons and `in`, and the row variable. -/
def reservedFunctions : List String := "item" :: booleanOpNames ++ intrinsicNames

/-- The name of a library function. -/
structure FunctionName where
  name : String
  library : name ∉ reservedFunctions

/-- The prefix operators. -/
inductive RowUnary where
  | neg | not
deriving DecidableEq

/-- The arithmetic operators, the comparisons and `in`. -/
inductive RowBinary where
  | add | sub | mul | div | pow
  | lt | le | gt | ge | eq | ne | isIn
deriving DecidableEq

/-- The expressions a predicate is built from.  A predicate can itself be compared,
listed or passed to a function. -/
inductive RowExpr where
  | col (c : ColumnName)
  | lit (l : Literal)
  | list (items : List RowExpr)
  | call (f : FunctionName) (args : List RowExpr)
  | unary (op : RowUnary) (x : RowExpr)
  | binary (op : RowBinary) (l r : RowExpr)
  | and (l r : RowExpr)
  | or (l r : RowExpr)

lemma FunctionName.not_mem_intrinsicNames (f : FunctionName) : f.name ∉ intrinsicNames :=
  fun h => f.library (by simp [reservedFunctions, h])

lemma ColumnName.ne_scName (c : ColumnName) (k : Nat) : c.name ≠ scName k := by
  intro h
  exact c.ne_internal (h ▸ take_scName k)

namespace Literal

/-- The value of a literal. -/
def value : Literal → BlValue
  | .int z => .number z
  | .float q => .number q
  | .string s => .string s
  | .bool b => .boolean b
  | .null => .null

/-- The node of a literal. -/
def tree : Literal → Node
  | .int z => .int z
  | .float q => .float q
  | .string s => .string s
  | .bool b => .bool b
  | .null => .nil

lemma patch_tree (l : Literal) (k : Nat) : l.tree.patch k = (.const l.value, k) := by
  cases l <;> rfl

end Literal

namespace RowUnary

/-- The operator's node. -/
def unary : RowUnary → UnaryOp
  | .neg => .neg
  | .not => .not

/-- The function of an operator. -/
def fn : RowUnary → String
  | .neg => "__neg"
  | .not => "__not"

lemma patchUnary_unary (op : RowUnary) (n : Node) : patchUnary op.unary n = Node.fn op.fn [n] := by
  cases op <;> rfl

lemma fn_ne_item (op : RowUnary) : op.fn ≠ "item" := by
  cases op <;> decide

end RowUnary

namespace RowBinary

/-- The operator's node. -/
def binary : RowBinary → BinaryOp
  | .add => .add
  | .sub => .sub
  | .mul => .mul
  | .div => .div
  | .pow => .pow
  | .lt => .lt
  | .le => .le
  | .gt => .gt
  | .ge => .ge
  | .eq => .eq
  | .ne => .ne
  | .isIn => .isIn

/-- The function of an operator. -/
def fn : RowBinary → String
  | .add => "__add"
  | .sub => "__sub"
  | .mul => "__mul"
  | .div => "__div"
  | .pow => "__pow"
  | .lt => "__lt"
  | .le => "__le"
  | .gt => "__gt"
  | .ge => "__ge"
  | .eq => "__eq"
  | .ne => "__ne"
  | .isIn => "__in"

/-- The comparisons and `in`. -/
def isTest : RowBinary → Bool
  | .add | .sub | .mul | .div | .pow => false
  | _ => true

lemma patchBinary_binary (op : RowBinary) (l r : Node) (k : Nat) :
    patchBinary op.binary l r k = (Node.fn op.fn [l, r], k) := by
  cases op <;> rfl

lemma fn_ne_item (op : RowBinary) : op.fn ≠ "item" := by
  cases op <;> decide

lemma fn_mem_booleanOpNames (op : RowBinary) : op.fn ∈ booleanOpNames ↔ op.isTest = true := by
  cases op <;> decide

lemma callFn_fn {lib : Lib} (op : RowBinary) (args : List VmValue) :
    callFn lib op.fn args = lib.fn op.fn args := by
  cases op <;> rfl

end RowBinary

namespace RowExpr

/-! ## The parsed tree and the code -/

mutual

/-- The parsed tree. -/
def tree : RowExpr → Node
  | .col c => .ident c.name
  | .lit l => l.tree
  | .list xs => .array (treeAll xs)
  | .call f xs => Node.fn f.name (treeAll xs)
  | .unary op x => .unary op.unary (tree x)
  | .binary op l r => .binary op.binary (tree l) (tree r)
  | .and l r => .binary .and (tree l) (tree r)
  | .or l r => .binary .or (tree l) (tree r)

/-- The parsed trees of a list. -/
def treeAll : List RowExpr → List Node
  | [] => []
  | x :: xs => tree x :: treeAll xs

end

mutual

/-- The patched tree, where a bare name is read as `name` says, and the counter. -/
def code (name : String → Node) : RowExpr → Nat → Node × Nat
  | .col c, k => (name c.name, k)
  | .lit l, k => (.const l.value, k)
  | .list xs, k =>
    let xs := codeAll name xs k
    (Node.fn "__mklist" xs.1, xs.2)
  | .call f xs, k =>
    let xs := codeAll name xs k
    (Node.fn f.name xs.1, xs.2)
  | .unary op x, k =>
    let x := code name x k
    (Node.fn op.fn [x.1], x.2)
  | .binary op l r, k =>
    let l := code name l k
    let r := code name r l.2
    (Node.fn op.fn [l.1, r.1], r.2)
  | .and l r, k =>
    let l := code name l k
    let r := code name r l.2
    (lowerLogical l.1 r.1 "__isFalse" "__blAnd" (r.2 + 1), r.2 + 1)
  | .or l r, k =>
    let l := code name l k
    let r := code name r l.2
    (lowerLogical l.1 r.1 "__isTrue" "__blOr" (r.2 + 1), r.2 + 1)

/-- The patched trees of a list. -/
def codeAll (name : String → Node) : List RowExpr → Nat → List Node × Nat
  | [], k => ([], k)
  | x :: xs, k =>
    let x := code name x k
    let xs := codeAll name xs x.2
    (x.1 :: xs.1, xs.2)

end

mutual

/-- The bare names. -/
def columns : RowExpr → List ColumnName
  | .col c => [c]
  | .lit _ => []
  | .list xs | .call _ xs => columnsAll xs
  | .unary _ x => columns x
  | .binary _ l r | .and l r | .or l r => columns l ++ columns r

/-- The bare names of a list. -/
def columnsAll : List RowExpr → List ColumnName
  | [] => []
  | x :: xs => columns x ++ columnsAll xs

end

mutual

/-- The bare names that stand in an operand of `and` or `or`, however deep. -/
def hidden : RowExpr → List ColumnName
  | .col _ | .lit _ => []
  | .list xs | .call _ xs => hiddenAll xs
  | .unary _ x => hidden x
  | .binary _ l r => hidden l ++ hidden r
  | .and l r | .or l r => columns l ++ columns r

/-- The hidden names of a list. -/
def hiddenAll : List RowExpr → List ColumnName
  | [] => []
  | x :: xs => hidden x ++ hiddenAll xs

end

mutual

/-- The value in a row, `and` and `or` in three-valued logic. -/
def value (lib : Lib) (row : Row) : RowExpr → Except String VmValue
  | .col c => .ok (.bl ((row.lookup c.name).getD .null))
  | .lit l => .ok (.bl l.value)
  | .list xs => do
    let vs ← valueAll lib row xs
    .ok (.bl (.list (vs.map VmValue.asBl)))
  | .call f xs => do
    let vs ← valueAll lib row xs
    lib.fn f.name vs
  | .unary op x => do
    let a ← value lib row x
    callFn lib op.fn [a]
  | .binary op l r => do
    let a ← value lib row l
    let b ← value lib row r
    lib.fn op.fn [a, b]
  | .and l r => do
    let a ← value lib row l
    if isFalse a.asBl then .ok (.bl a.asBl)
    else
      let b ← value lib row r
      .ok (.bl (blAnd a.asBl b.asBl))
  | .or l r => do
    let a ← value lib row l
    if truthy a.asBl then .ok (.bl a.asBl)
    else
      let b ← value lib row r
      .ok (.bl (blOr a.asBl b.asBl))

/-- The values of a list, left to right. -/
def valueAll (lib : Lib) (row : Row) : List RowExpr → Except String (List VmValue)
  | [] => .ok []
  | x :: xs => do
    let v ← value lib row x
    let vs ← valueAll lib row xs
    .ok (v :: vs)

end

mutual

/-- The patcher computes the code, with bare names as they are. -/
theorem patch_tree : (e : RowExpr) → (k : Nat) → e.tree.patch k = e.code .ident k
  | .col _, _ => rfl
  | .lit l, k => l.patch_tree k
  | .list xs, k => by simp only [tree, patch, patchAll_treeAll xs k, code]
  | .call f xs, k => by simp only [tree, Node.fn, patch, patchAll_treeAll xs k, patchCall, code]
  | .unary op x, k => by simp only [tree, patch, patch_tree x k, op.patchUnary_unary, code]
  | .binary op l r, k => by
    simp only [tree, patch, patch_tree l, patch_tree r, op.patchBinary_binary, code]
  | .and l r, k | .or l r, k => by
    simp only [tree, patch, patch_tree l, patch_tree r, patchBinary, code]

theorem patchAll_treeAll : (xs : List RowExpr) → (k : Nat) →
    patchAll (treeAll xs) k = codeAll .ident xs k
  | [], _ => rfl
  | x :: xs, k => by
    simp only [treeAll, patchAll, patch_tree x, patchAll_treeAll xs, codeAll]

end

mutual

/-- The code only depends on how the expression's own names are read. -/
theorem code_congr {f g : String → Node} : (e : RowExpr) → (k : Nat) →
    (∀ c ∈ e.columns, f c.name = g c.name) → e.code f k = e.code g k
  | .col c, k, h => by simp only [code, h c (by simp [columns])]
  | .lit _, _, _ => rfl
  | .list xs, k, h | .call _ xs, k, h => by simp only [code, codeAll_congr xs k h]
  | .unary op x, k, h => by simp only [code, code_congr x k h]
  | .binary _ l r, k, h | .and l r, k, h | .or l r, k, h => by
    simp only [columns, mem_append] at h
    simp only [code, code_congr l _ fun c hc => h c (.inl hc),
      code_congr r _ fun c hc => h c (.inr hc)]

theorem codeAll_congr {f g : String → Node} : (xs : List RowExpr) → (k : Nat) →
    (∀ c ∈ columnsAll xs, f c.name = g c.name) → codeAll f xs k = codeAll g xs k
  | [], _, _ => rfl
  | x :: xs, k, h => by
    simp only [columnsAll, mem_append] at h
    simp only [codeAll, code_congr x _ fun c hc => h c (.inl hc),
      codeAll_congr xs _ fun c hc => h c (.inr hc)]

end

end RowExpr

/-- A bare name as a column of the row bound to `item`. -/
def itemColumn (name : String) : Node :=
  Node.fn "componentAccess" [.ident "item", .const (.string name)]

/-! ## The names of lowered connectives -/

section Logical

variable {lib : Lib} (l r : Node) (k : Nat) (s : Bindings) (p : Option VmValue)

variable {guardFn combineFn : String}

lemma eval_and : eval lib (lowerLogical l r "__isFalse" "__blAnd" k) s p =
    eval lib l s p >>= fun a =>
      if isFalse a.asBl then .ok (.bl a.asBl)
      else eval lib r (update s (scName k) (some a)) p >>= fun b =>
        .ok (.bl (blAnd a.asBl b.asBl)) := by
  simp only [← evalM_eff]
  exact evalM_lowerLogical (fun _ => callFnM_eff ..) (fun _ _ => callFnM_eff ..) l r k s p

lemma eval_or : eval lib (lowerLogical l r "__isTrue" "__blOr" k) s p =
    eval lib l s p >>= fun a =>
      if truthy a.asBl then .ok (.bl a.asBl)
      else eval lib r (update s (scName k) (some a)) p >>= fun b =>
        .ok (.bl (blOr a.asBl b.asBl)) := by
  simp only [← evalM_eff]
  exact evalM_lowerLogical (fun _ => callFnM_eff ..) (fun _ _ => callFnM_eff ..) l r k s p

lemma referencesItem_lowerLogical (hg : guardFn ≠ "item")
    (hc : combineFn ≠ "item") : referencesItem (lowerLogical l r guardFn combineFn k) =
      (referencesItem l || referencesItem r) := by
  have hk : (scName k == "item") = false := by simp [scName_ne_item]
  have hg : (guardFn == "item") = false := by simp [hg]
  have hc : (combineFn == "item") = false := by simp [hc]
  rw [lowerLogical, ← scName]
  simp [Node.fn, referencesItem, referencesItemAny, hk, hg, hc]

end Logical

/-! ## What the rewriting reaches -/

namespace RowExpr

variable {lib : Lib} {row : Row}

lemma eval_itemColumn {s : Bindings} (h : s "item" = some (.bl (.dictionary row)))
    (el : Option VmValue) (c : String) :
    eval lib (itemColumn c) s el = .ok (.bl ((row.lookup c).getD .null)) := by
  have hargs : evalAll lib [.ident "item", .const (.string c)] s el =
      .ok [.bl (.dictionary row), .bl (.string c)] := by
    simp [evalAll, eval, h]
  rw [itemColumn, Node.fn, eval]
  simp only [calleeName, hargs, ok_bind]
  rfl

lemma callFn_mklist (xs : List VmValue) :
    callFn lib "__mklist" xs = .ok (.bl (.list (xs.map VmValue.asBl))) := rfl

section Value

variable {el : Option VmValue}

mutual

/-- With every name read from the row, the code computes the expression's value. -/
theorem eval_code : (e : RowExpr) → (k : Nat) → (s : Bindings) →
    s "item" = some (.bl (.dictionary row)) →
      eval lib (e.code itemColumn k).1 s el = e.value lib row
  | .col c, _, s, h => eval_itemColumn h el c.name
  | .lit _, _, _, _ => rfl
  | .list xs, k, s, h => by
    simp only [code, Node.fn, eval, calleeName, evalAll_code xs k s h, callFn_mklist, value]
  | .call f xs, k, s, h => by
    simp only [code, Node.fn, eval, calleeName, evalAll_code xs k s h,
      callFn_of_not_mem f.not_mem_intrinsicNames, value]
  | .unary op x, k, s, h => by
    simp only [code, Node.fn, eval, calleeName, evalAll, eval_code x k s h, value, bind_assoc,
      ok_bind]
  | .binary op l r, k, s, h => by
    simp only [code, Node.fn, eval, calleeName, evalAll, eval_code l k s h, eval_code r _ s h,
      op.callFn_fn, value, bind_assoc, ok_bind]
  | .and l r, k, s, h | .or l r, k, s, h => by
    -- The right operand is evaluated with the left one bound to its own name.
    have hs (j : Nat) (a : VmValue) : update s (scName j) (some a) "item" =
        some (.bl (.dictionary row)) := by
      rw [update_of_ne (scName_ne_item j).symm, h]
    simp only [code, eval_and, eval_or, eval_code l k s h, eval_code r _ _ (hs _ _), value]

theorem evalAll_code : (xs : List RowExpr) → (k : Nat) → (s : Bindings) →
    s "item" = some (.bl (.dictionary row)) →
      evalAll lib (codeAll itemColumn xs k).1 s el = valueAll lib row xs
  | [], _, _, _ => rfl
  | x :: xs, k, s, h => by
    simp only [codeAll, evalAll, eval_code x k s h, evalAll_code xs _ s h, valueAll]

end

end Value

mutual

/-- Where no name is hidden, column rewriting reaches every name. -/
theorem rewriteRowColumns_code : (e : RowExpr) → (k : Nat) → e.hidden = [] →
    rewriteRowColumns (e.code .ident k).1 = (e.code itemColumn k).1 ∧
      (e.code .ident k).2 = (e.code itemColumn k).2
  | .col c, _, _ => by simp [code, rewriteRowColumns, c.ne_item, itemColumn]
  | .lit _, _, _ => ⟨rfl, rfl⟩
  | .list xs, k, h | .call _ xs, k, h => by
    obtain ⟨hxs, hk⟩ := rewriteRowColumnsAll_code xs k h
    simp only [code, Node.fn, rewriteRowColumns, hxs, hk, and_self]
  | .unary op x, k, h => by
    obtain ⟨hx, hk⟩ := rewriteRowColumns_code x k h
    simp only [code, Node.fn, rewriteRowColumns, rewriteRowColumnsAll, hx, hk, and_self]
  | .binary op l r, k, h => by
    obtain ⟨hl, hr⟩ := append_eq_nil_iff.1 h
    obtain ⟨hl, hk⟩ := rewriteRowColumns_code l k hl
    obtain ⟨hr, hk'⟩ := rewriteRowColumns_code r (l.code itemColumn k).2 hr
    simp only [code, Node.fn, rewriteRowColumns, rewriteRowColumnsAll, hl, hk, hr, hk', and_self]
  | .and l r, k, h | .or l r, k, h => by
    -- The `let` is not looked into, but then it has no name either.
    rw [← code_congr _ k (by simp [columns, show l.columns ++ r.columns = [] from h])]
    exact ⟨rfl, rfl⟩

theorem rewriteRowColumnsAll_code : (xs : List RowExpr) → (k : Nat) → hiddenAll xs = [] →
    rewriteRowColumnsAll (codeAll .ident xs k).1 = (codeAll itemColumn xs k).1 ∧
      (codeAll .ident xs k).2 = (codeAll itemColumn xs k).2
  | [], _, _ => ⟨rfl, rfl⟩
  | x :: xs, k, h => by
    obtain ⟨hx, hxs⟩ := append_eq_nil_iff.1 h
    obtain ⟨hx, hk⟩ := rewriteRowColumns_code x k hx
    obtain ⟨hxs, hk'⟩ := rewriteRowColumnsAll_code xs (x.code itemColumn k).2 hxs
    simp only [codeAll, rewriteRowColumnsAll, hx, hk, hxs, hk', and_self]

end

section Reads

variable {f : String → Node} {x : String}

mutual

/-- The code looks up what the names of the expression are read as. -/
theorem mem_reads_code (hf : ∀ (c : ColumnName) k, scName k ∉ (f c.name).reads) :
    (e : RowExpr) → (k : Nat) →
      (x ∈ (e.code f k).1.reads ↔ ∃ c ∈ e.columns, x ∈ (f c.name).reads)
  | .col c, _ => by simp [code, columns]
  | .lit _, _ => by simp [code, columns, reads]
  | .list xs, k | .call _ xs, k => by
    simp only [code, columns, Node.fn, reads, calleeName, mem_readsAll_code hf xs]
  | .unary _ y, k => by
    simp only [code, columns, Node.fn, reads, calleeName, readsAll, append_nil,
      mem_reads_code hf y]
  | .binary _ l r, k => by
    simp only [code, columns, Node.fn, reads, calleeName, readsAll, mem_append,
      mem_reads_code hf l, mem_reads_code hf r, not_mem_nil, or_false, or_and_right, exists_or]
  | .and l r, k | .or l r, k => by
    -- What the lowered connective binds is not looked up in an operand.
    simp only [code, columns, mem_append, or_and_right, exists_or, mem_reads_lowerLogical,
      mem_reads_code hf l, mem_reads_code hf r]
    exact or_congr_right (and_iff_left_of_imp fun ⟨c, _, hc⟩ hx => hf c _ (hx ▸ hc))

theorem mem_readsAll_code (hf : ∀ (c : ColumnName) k, scName k ∉ (f c.name).reads) :
    (xs : List RowExpr) → (k : Nat) →
      (x ∈ readsAll (codeAll f xs k).1 ↔ ∃ c ∈ columnsAll xs, x ∈ (f c.name).reads)
  | [], _ => by simp [codeAll, columnsAll, readsAll]
  | y :: ys, k => by
    simp only [codeAll, columnsAll, readsAll, mem_append, mem_reads_code hf y,
      mem_readsAll_code hf ys, or_and_right, exists_or]

end

lemma mem_reads_ident {c : ColumnName} (e : RowExpr) (k : Nat) (h : c ∈ e.columns) :
    c.name ∈ (e.code .ident k).1.reads :=
  (mem_reads_code (fun c k => by simp [reads, (c.ne_scName k).symm]) e k).2
    ⟨c, h, by simp [reads]⟩

variable {c : ColumnName}

mutual

/-- A hidden name is left bare. -/
theorem mem_reads_rewriteRowColumns : (e : RowExpr) → (k : Nat) → c ∈ e.hidden →
    c.name ∈ (rewriteRowColumns (e.code .ident k).1).reads
  | .col _, _, h | .lit _, _, h => absurd h not_mem_nil
  | .list xs, k, h | .call _ xs, k, h => by
    simp only [code, Node.fn, rewriteRowColumns, reads, calleeName]
    exact mem_readsAll_rewriteRowColumnsAll xs k h
  | .unary _ x, k, h => by
    simp only [code, Node.fn, rewriteRowColumns, rewriteRowColumnsAll, reads, calleeName, readsAll,
      append_nil]
    exact mem_reads_rewriteRowColumns x k h
  | .binary _ l r, k, h => by
    simp only [code, Node.fn, rewriteRowColumns, rewriteRowColumnsAll, reads, calleeName, readsAll,
      append_nil, mem_append]
    exact (mem_append.1 h).imp (mem_reads_rewriteRowColumns l k) (mem_reads_rewriteRowColumns r _)
  | .and l r, k, h => mem_reads_ident (.and l r) k h
  | .or l r, k, h => mem_reads_ident (.or l r) k h

theorem mem_readsAll_rewriteRowColumnsAll : (xs : List RowExpr) → (k : Nat) → c ∈ hiddenAll xs →
    c.name ∈ readsAll (rewriteRowColumnsAll (codeAll .ident xs k).1)
  | [], _, h => absurd h not_mem_nil
  | x :: xs, k, h => by
    simp only [codeAll, rewriteRowColumnsAll, readsAll, mem_append]
    exact (mem_append.1 h).imp (mem_reads_rewriteRowColumns x k)
      (mem_readsAll_rewriteRowColumnsAll xs _)

end

end Reads

mutual

/-- No name of an expression is the row variable. -/
theorem referencesItem_code : (e : RowExpr) → (k : Nat) →
    referencesItem (e.code .ident k).1 = false
  | .col c, _ => by simp [code, referencesItem, c.ne_item]
  | .lit _, _ => rfl
  | .list xs, k => by simp [code, Node.fn, referencesItem, referencesItemAny_code xs k]
  | .call f xs, k => by
    have hf : f.name ≠ "item" := fun h => f.library (by simp [reservedFunctions, h])
    simp [code, Node.fn, referencesItem, hf, referencesItemAny_code xs k]
  | .unary op x, k => by
    simp [code, Node.fn, referencesItem, referencesItemAny, op.fn_ne_item, referencesItem_code x k]
  | .binary op l r, k => by
    simp [code, Node.fn, referencesItem, referencesItemAny, op.fn_ne_item, referencesItem_code l k,
      referencesItem_code r]
  | .and l r, k | .or l r, k => by
    rw [code, referencesItem_lowerLogical _ _ _ (by decide) (by decide), referencesItem_code l,
      referencesItem_code r]
    rfl

theorem referencesItemAny_code : (xs : List RowExpr) → (k : Nat) →
    referencesItemAny (codeAll .ident xs k).1 = false
  | [], _ => rfl
  | x :: xs, k => by
    simp [codeAll, referencesItemAny, referencesItem_code x k, referencesItemAny_code xs]

end

/-- The tops that brackets recognise. -/
def recognised : RowExpr → Bool
  | .unary .not _ => true
  | .binary op _ _ => op.isTest
  | _ => false

lemma isFilterPredicate_of_recognised (e : RowExpr) (k : Nat) (h : e.recognised) :
    isFilterPredicate (e.code .ident k).1 ∧ (e.code .ident k).1.stringProperty = none := by
  cases e with
  | binary op l r =>
    have hop : op.fn ∈ booleanOpNames := op.fn_mem_booleanOpNames.2 h
    simp [isFilterPredicate, code, Node.fn, stringProperty, hop]
  | unary op x =>
    cases op with
    | neg => cases h
    | not => simp [isFilterPredicate, code, Node.fn, RowUnary.fn, booleanOpNames, stringProperty]
  | _ => cases h

end RowExpr

/-! ## Predicates -/

/-- A truth value, which no table index takes. -/
def Truth (v : VmValue) : Prop := v = .bl .null ∨ ∃ b, v = .bl (.boolean b)

/-- The expression is a predicate, by its top: a column, a boolean, a comparison, an
`in`, a connective, or a call of a function whose values are truth values. -/
def RowExpr.IsPredicate (lib : Lib) : RowExpr → Prop
  | .col _ | .lit (.bool _) | .unary .not _ | .and _ _ | .or _ _ => True
  | .binary op _ _ => op.isTest = true
  | .call f _ => ∀ args v, lib.fn f.name args = .ok v → Truth v
  | _ => False

/-- The predicates. -/
structure Pred (lib : Lib) where
  expr : RowExpr
  isPredicate : expr.IsPredicate lib

/-! ## Filtering -/

/-- The rows that are kept, in order. -/
def keepRows (value : Row → Except String VmValue) : List Row → Except String (List Row)
  | [] => .ok []
  | r :: rs => do
    let v ← value r
    let rest ← keepRows value rs
    .ok (if truthy v.asBl then r :: rest else rest)

section Filter

variable {lib : Lib}

lemma dictionaries_map (rows : List Row) :
    dictionaries (rows.map fun r => .bl (.dictionary r)) = rows := by
  induction rows with
  | nil => rfl
  | cons r rs ih =>
    rw [dictionaries] at ih
    simp [dictionaries, ih]

variable {value : Row → Except String VmValue}

lemma filterSlice_rows {f : VmValue → Except String VmValue} (hf : ∀ r, f (.bl (.dictionary r)) =
      value r >>= fun v => .ok (.bool (truthy v.asBl))) (rows : List Row) :
    filterSlice f (rows.map fun r => .bl (.dictionary r)) =
      (map fun r => .bl (.dictionary r)) <$> keepRows value rows := by
  induction rows with
  | nil => rfl
  | cons r rs ih =>
    rw [map_cons, filterSlice, hf, ih, keepRows]
    cases value r with
    | error e => rfl
    | ok v =>
      cases keepRows value rs with
      | error e => rfl
      | ok rest => cases h : truthy v.asBl <;> simp [h]

/-- What a lowered filter computes on a table, when its closure decides rows by
`value`. -/
lemma eval_lowerFilter {recv pred : Node} {negate : Bool} {s : Bindings} {el : Option VmValue}
    {columns : List String} {rows : List Row}
    (hrecv : eval lib recv s el = .ok (.bl (.table columns rows)))
    (hval : ∀ r s', s' "item" = some (.bl (.dictionary r)) → ∀ el',
      eval lib (if negate then Node.fn "__not" [rewriteRowColumns pred] else rewriteRowColumns pred)
        s' el' = value r) :
    eval lib (lowerFilter recv pred negate) s el =
      (fun kept => .bl (.table columns kept)) <$> keepRows value rows := by
  have hitems : eval lib (Node.fn "__items" [recv]) s el =
      .ok (.slice (rows.map fun r => .bl (.dictionary r))) := by
    rw [eval_fn_one, hrecv, ok_bind, callFn_items]
    simp [items, coerceRowList]
  have hclosure (r : Row) : eval lib (.letIn "item" .pointer (Node.fn "__truthy"
      [if negate then Node.fn "__not" [rewriteRowColumns pred] else rewriteRowColumns pred])) s
        (some (.bl (.dictionary r))) = value r >>= fun v => .ok (.bool (truthy v.asBl)) := by
    simp only [eval, ok_bind, eval_fn_one, callFn_truthy]
    rw [hval r _ (update_self ..)]
  rw [lowerFilter, eval_fn_two, hrecv, ok_bind, itemClosure, eval_builtin_closure, hitems, ok_bind,
    callBuiltin_filter, filterSlice_rows hclosure]
  cases keepRows value rows with
  | error e => rfl
  | ok kept =>
    simp only [map_ok, ok_bind, callFn_retable]
    rw [dictionaries_map]

end Filter

/-! ## The property -/

/-- The tree of `t[p]`. -/
def bracketTree (t : String) (p : Node) : Node := .member (.ident t) p false

/-- The tree of `t.method(p)`. -/
def methodTree (t method : String) (p : Node) : Node :=
  .call (.member (.ident t) (.string method) true) [p]

namespace Pred

variable {lib : Lib} (p : Pred lib)

/-- The negated predicate. -/
def not : Pred lib := ⟨.unary .not p.expr, trivial⟩

/-- Row filters with the predicate do what they should: every bare name is looked
up in the row, `t[p]` and `t.filter(p)` keep exactly the rows for which the
predicate is true, and `t.filterOut(p)` is `t.filter(not p)`. -/
structure FiltersRows : Prop where
  covered : ∀ x ∈ (rewriteRowColumns p.expr.tree.patched).reads, x = "item"
  bracket : ∀ (t : String) (s : Bindings) (el : Option VmValue) (columns : List String)
    (rows : List Row), s t = some (.bl (.table columns rows)) →
      eval lib (bracketTree t p.expr.tree).patched s el =
        (fun kept => .bl (.table columns kept)) <$> keepRows (p.expr.value lib) rows
  method : ∀ (t : String) (s : Bindings) (el : Option VmValue) (columns : List String)
    (rows : List Row), s t = some (.bl (.table columns rows)) →
      eval lib (methodTree t "filter" p.expr.tree).patched s el =
        (fun kept => .bl (.table columns kept)) <$> keepRows (p.expr.value lib) rows
  filterOut : ∀ (t : String) (s : Bindings) (el : Option VmValue),
    eval lib (methodTree t "filterOut" p.expr.tree).patched s el =
      eval lib (methodTree t "filter" p.not.expr.tree).patched s el

end Pred

namespace RowExpr

variable {lib : Lib} {e : RowExpr}

lemma patched_bracketTree (t : String) : (bracketTree t e.tree).patched =
    patchMember (.ident t) (e.code .ident 0).1 false := by
  rw [bracketTree, patched, patch, ← patch_tree]
  rfl

lemma patched_filter (t : String) : (methodTree t "filter" e.tree).patched =
    lowerFilter (.ident t) (e.code .ident 0).1 false := by
  rw [← patch_tree]
  rfl

lemma patched_filterOut (t : String) : (methodTree t "filterOut" e.tree).patched =
    lowerFilter (.ident t) (e.code .ident 0).1 true := by
  rw [← patch_tree]
  rfl

/-- `filterOut` is compiled to the very tree of `filter` with the negated predicate. -/
lemma patched_filterOut_eq (t : String) : (methodTree t "filterOut" e.tree).patched =
    (methodTree t "filter" (RowExpr.unary .not e).tree).patched := by
  rw [patched_filterOut, patched_filter]
  rfl

variable {t : String} {s : Bindings} {el : Option VmValue} {columns : List String} {rows : List Row}

/-- Where column rewriting reaches every name, the lowered filter is right. -/
lemma eval_filter (h : e.hidden = []) (hs : s t = some (.bl (.table columns rows))) :
    eval lib (lowerFilter (.ident t) (e.code .ident 0).1 false) s el =
      (fun kept => .bl (.table columns kept)) <$> keepRows (e.value lib) rows := by
  refine eval_lowerFilter (by simp [eval, hs]) fun r s' hitem el' => ?_
  rw [if_neg Bool.false_ne_true, (rewriteRowColumns_code e 0 h).1, eval_code e 0 s' hitem]

variable {a : BlValue}

lemma truth_of_decided (h : isFalse a ∨ truthy a) : Truth (.bl a) := by
  cases a <;> simp_all [isFalse, truthy, Truth]

variable {v : VmValue}

/-- A predicate whose top is a literal, a call or a connective has a truth value. -/
lemma truth_of_eval (hp : e.IsPredicate lib) (hr : e.recognised = false) (hcol : ∀ c, e ≠ .col c)
    (k : Nat) (h : eval lib (e.code .ident k).1 s el = .ok v) : Truth v := by
  cases e with
  | col c => exact absurd rfl (hcol c)
  | lit l =>
    cases l with
    | bool b =>
      cases h
      exact .inr ⟨b, rfl⟩
    | _ => exact hp.elim
  | list xs => exact hp.elim
  | call f args =>
    simp only [code, Node.fn, eval, calleeName, bind_eq_ok,
      callFn_of_not_mem f.not_mem_intrinsicNames] at h
    obtain ⟨vs, -, h⟩ := h
    exact hp vs v h
  | unary op x =>
    cases op with
    | neg => exact hp.elim
    | not => cases hr
  | binary op l r => exact absurd (hr.symm.trans hp) Bool.false_ne_true
  | and l r | or l r =>
    simp only [code, eval_and, eval_or, bind_eq_ok] at h
    obtain ⟨a, -, h⟩ := h
    split at h
    · cases h
      exact truth_of_decided (by simp [*])
    · obtain ⟨b, -, h⟩ := bind_eq_ok.1 h
      cases h
      simp only [blAnd, blOr]
      split <;> simp [Truth]

/-- A bracket that is not recognised as a filter is an index. -/
lemma patchMember_of_not_recognised (hp : e.IsPredicate lib) (hr : e.recognised = false)
    (hcol : ∀ c, e ≠ .col c) (n : Node) (k : Nat) :
    patchMember n (e.code .ident k).1 false = Node.fn "__index" [n, (e.code .ident k).1] := by
  have hitem := referencesItem_code e k
  cases e with
  | col c => exact absurd rfl (hcol c)
  | lit l =>
    cases l with
    | bool b => rfl
    | _ => exact hp.elim
  | list xs => exact hp.elim
  | call f args =>
    have hname : f.name ∉ booleanOpNames := fun h => f.library (by simp [reservedFunctions, h])
    simp [patchMember, stringProperty, isFilterPredicate, code, Node.fn] at hitem ⊢
    simp [hitem, hname]
  | unary op x =>
    cases op with
    | neg => exact hp.elim
    | not => cases hr
  | binary op l r => exact absurd (hr.symm.trans hp) Bool.false_ne_true
  | and l r | or l r =>
    rw [code, lowerLogical] at hitem ⊢
    simp only [patchMember, stringProperty, isFilterPredicate, hitem, Bool.false_eq_true, if_false,
      Bool.or_false]

/-- A bracket that is not recognised as a filter never yields a table. -/
lemma bracket_ne_table (hp : e.IsPredicate lib) (hr : e.recognised = false)
    {columns' : List String} {rows' : List Row} (hs : s t = some (.bl (.table columns rows))) :
    eval lib (bracketTree t e.tree).patched s el ≠ .ok (.bl (.table columns' rows')) := by
  intro h
  have hrecv : eval lib (.ident t) s el = .ok (.bl (.table columns rows)) := by simp [eval, hs]
  rw [patched_bracketTree] at h
  by_cases hcol : ∃ c, e = .col c
  · obtain ⟨c, rfl⟩ := hcol
    have hmember : patchMember (.ident t) ((RowExpr.col c).code .ident 0).1 false =
        Node.fn "componentAccess" [.ident t, .const (.string c.name)] := rfl
    have hcall : callFn lib "componentAccess" [.bl (.table columns rows), .bl (.string c.name)] =
        .ok (.bl (tableComponent columns rows c.name)) := rfl
    rw [hmember, eval_fn_two, hrecv, ok_bind, eval, ok_bind, hcall] at h
    simp only [tableComponent, Except.ok.injEq, VmValue.bl.injEq] at h
    split at h <;> cases h
  · have hcol : ∀ c, e ≠ .col c := fun c hc => hcol ⟨c, hc⟩
    have hcall (v : VmValue) : callFn lib "__index" [.bl (.table columns rows), v] =
        index lib (.table columns rows) v.asBl := rfl
    rw [patchMember_of_not_recognised hp hr hcol, eval_fn_two, hrecv, ok_bind] at h
    obtain ⟨v, hv, h⟩ := bind_eq_ok.1 h
    rw [hcall] at h
    rcases truth_of_eval hp hr hcol 0 hv with rfl | ⟨b, rfl⟩ <;> cases h

end RowExpr

namespace Pred

/-- Row filters with a predicate work exactly when the top of the predicate is a
comparison, an `in` or a `not`, and no bare name stands in an operand of `and` or
`or`, wherever in the predicate the connective is. -/
theorem filtersRows_iff (lib : Lib) (p : Pred lib) :
    p.FiltersRows ↔ p.expr.recognised = true ∧ p.expr.hidden = [] := by
  constructor
  · intro h
    refine ⟨?_, ?_⟩
    · by_contra hr
      -- On a table without rows the filter has to return that table.
      refine RowExpr.bracket_ne_table p.isPredicate (Bool.eq_false_iff.2 hr)
        (s := fun _ => some (.bl (.table [] []))) rfl (h.bracket "t" _ none [] [] rfl)
    · by_contra hbad
      obtain ⟨c, hc⟩ := exists_mem_of_ne_nil _ hbad
      refine c.ne_item (h.covered c.name ?_)
      rw [patched, RowExpr.patch_tree]
      exact RowExpr.mem_reads_rewriteRowColumns p.expr 0 hc
  · rintro ⟨hr, h⟩
    refine ⟨fun x hx => ?_, fun t s el columns rows hs => ?_, fun t s el columns rows hs => ?_,
      fun t s el => by rw [RowExpr.patched_filterOut_eq, Pred.not]⟩
    · rw [patched, RowExpr.patch_tree, (RowExpr.rewriteRowColumns_code p.expr 0 h).1] at hx
      have hreads (c : String) : (itemColumn c).reads = ["item"] := by
        simp [itemColumn, Node.fn, reads, calleeName, readsAll]
      obtain ⟨c, -, hc⟩ :=
        (RowExpr.mem_reads_code (fun c k => by simp [hreads, scName_ne_item]) p.expr 0).1 hx
      simpa [hreads] using hc
    · obtain ⟨hfilter, hstring⟩ := p.expr.isFilterPredicate_of_recognised 0 hr
      rw [RowExpr.patched_bracketTree, patchMember, hstring]
      simp only [hfilter, if_true, Bool.false_eq_true, if_false]
      exact RowExpr.eval_filter h hs
    · rw [RowExpr.patched_filter]
      exact RowExpr.eval_filter h hs

/-! ## A conjunction is not a filter -/

/-- Comparison of numbers is all the example needs of the library. -/
def comparisonLib : Lib :=
  { Lib.empty with
    fn
      | "__gt", [.bl (.number x), .bl (.number y)] => .ok (.bl (.boolean (decide (y < x))))
      | "__lt", [.bl (.number x), .bl (.number y)] => .ok (.bl (.boolean (decide (x < y))))
      | _, _ => callError }

/-- `x > 1 and x < 5`. -/
def between : Pred comparisonLib where
  expr :=
    let x : RowExpr := .col ⟨"x", by decide, by decide⟩
    .and (.binary .gt x (.lit (.int 1))) (.binary .lt x (.lit (.int 5)))
  isPredicate := trivial

/-- `(x > 1 and x < 5) = true`. -/
def betweenIsTrue : Pred comparisonLib where
  expr := .binary .eq between.expr (.lit (.bool true))
  isPredicate := rfl

-- The comparison is recognised, and the names below it are hidden all the same.
example : betweenIsTrue.expr.recognised = true ∧
    betweenIsTrue.expr.hidden.map ColumnName.name = ["x", "x"] :=
  ⟨rfl, rfl⟩

/-- A table `t` with one row, whose `x` is 2, next to an input `x` that is 0. -/
def betweenNames : Bindings
  | "t" => some (.bl (.table ["x"] [[("x", .number 2)]]))
  | "x" => some (.bl (.number 0))
  | _ => none

/-- The row should be kept, but the bracket is an index and yields null, and the
method reads the input instead of the column and drops the row. -/
theorem between_loses_row :
    keepRows (between.expr.value comparisonLib) [[("x", .number 2)]] =
      .ok [[("x", .number 2)]] ∧
    eval comparisonLib (bracketTree "t" between.expr.tree).patched betweenNames none =
      .ok (.bl .null) ∧
    eval comparisonLib (methodTree "t" "filter" between.expr.tree).patched betweenNames none =
      .ok (.bl (.table ["x"] [])) ∧
    ¬ between.FiltersRows := by
  have hbracket : eval comparisonLib (bracketTree "t" between.expr.tree).patched betweenNames none =
      .ok (.bl .null) := by with_unfolding_all rfl
  refine ⟨by with_unfolding_all rfl, hbracket, by with_unfolding_all rfl, fun h => ?_⟩
  have := h.bracket "t" betweenNames none _ _ rfl
  rw [hbracket] at this
  revert this
  cases keepRows (between.expr.value comparisonLib) [[("x", .number 2)]] <;> simp

end Pred

end Blkit
