import Mathlib.Data.List.ReduceOption
import Blkit.Expr.Eval
import Blkit.Expr.Scope
import Mathlib.Data.List.Induction

/-!
# Dictionaries

The values of a literal are meant to see the names around it and the keys written
before them.  `lowerMap` binds the keys that are identifiers one inside the other, and
puts the values of the other keys into the innermost scope, where all of them are
visible.

A dictionary is read and written along a path of keys.  A write makes the dictionaries
that are missing on its way; the path then reads what was written, and other paths do
not see it.
-/

namespace Blkit

open Fallible Node List Function

/-! ## What the values see -/

section Sees

variable (lib : Lib) (el : Option VmValue)

/-- The reference: the values in the order they are written, each in the scope of the
keys before it. -/
def dictRef : List (String × Node) → Bindings → Row → Except String Row
  | [], _, d => .ok d
  | e :: es, s, d => do
    let x ← eval lib e.2 s el
    dictRef es (if validIdentifier e.1 then Function.update s e.1 (some x) else s)
      (dictSet d e.1 x.asBl)

/-- The scope after the lets of a lowered literal. -/
def bindKeys : List (String × Node) → Bindings → Except String Bindings
  | [], s => .ok s
  | e :: es, s =>
    if validIdentifier e.1 then do
      let x ← eval lib e.2 s el
      bindKeys es (Function.update s e.1 (some x))
    else bindKeys es s

/-- The dictionary a lowered literal makes in the scope of its lets. -/
def dictArgs (s : Bindings) : List (String × Node) → Row → Except String Row
  | [], d => .ok d
  | e :: es, d => do
    let x ← eval lib (if validIdentifier e.1 then .ident e.1 else e.2) s el
    dictArgs s es (dictSet d e.1 x.asBl)

variable {lib el}

lemma eval_foldr_letIn (entries : List (String × Node)) (inner : Node) (s : Bindings) :
    eval lib (entries.foldr (fun e inner =>
        if validIdentifier e.1 then .letIn e.1 e.2 inner else inner) inner) s el =
      bindKeys lib el entries s >>= fun s' => eval lib inner s' el := by
  induction entries generalizing s with
  | nil => rfl
  | cons e entries ih =>
    rw [foldr_cons, bindKeys]
    split
    · rw [eval, bind_assoc]
      exact bind_congr fun x => ih _
    · exact ih s

lemma evalAll_mkdict (entries : List (String × Node)) (s : Bindings) (d : Row) :
    (evalAll lib (entries.flatMap fun e =>
        [.const (.string e.1), if validIdentifier e.1 then .ident e.1 else e.2]) s el >>=
      fun vs => mkDict vs d) = dictArgs lib el s entries d := by
  induction entries generalizing d with
  | nil => rfl
  | cons e entries ih =>
    rw [dictArgs, flatMap_cons]
    simp only [cons_append, nil_append, evalAll, eval, ok_bind, bind_assoc]
    refine bind_congr fun x => ?_
    rw [← ih]
    rfl

lemma eval_lowerMap (keys : List (Option String)) (vs : List Node) (s : Bindings) :
    eval lib (lowerMap keys vs) s el = bindKeys lib el (mapEntries keys vs) s >>= fun s' =>
        (fun d => .bl (.dictionary d)) <$> dictArgs lib el s' (mapEntries keys vs) [] := by
  rw [lowerMap, eval_foldr_letIn]
  refine bind_congr fun s' => ?_
  have hcall (xs : List VmValue) : callFn lib "__mkdict" xs =
      (fun d => .bl (.dictionary d)) <$> mkDict xs [] := rfl
  rw [← evalAll_mkdict, Node.fn, eval]
  simp only [calleeName, hcall, map_bind]

/-! ### Writing a key twice -/

/-- The same entries, up to the value at `k`. -/
inductive EqExcept (k : String) : Row → Row → Prop where
  | here (x y : BlValue) (d : Row) : EqExcept k ((k, x) :: d) ((k, y) :: d)
  | there {e : String × BlValue} {d d' : Row} (he : e.1 ≠ k) (h : EqExcept k d d') :
      EqExcept k (e :: d) (e :: d')

lemma eqExcept_dictSet (k : String) (x y : BlValue) (d : Row) :
    EqExcept k (dictSet d k x) (dictSet d k y) := by
  induction d with
  | nil => exact .here x y []
  | cons e d ih =>
    rw [dictSet, dictSet]
    split
    · exact .here x y d
    case isFalse he => exact .there he ih

variable {k : String} {d d' : Row}

lemma EqExcept.dictSet_self (h : EqExcept k d d') (v : BlValue) :
    dictSet d k v = dictSet d' k v := by
  induction h with
  | here x y d => simp [dictSet]
  | there he h ih => rw [dictSet, dictSet, if_neg he, if_neg he, ih]

lemma EqExcept.dictSet_other {j : String} (hj : j ≠ k) (h : EqExcept k d d')
    (v : BlValue) : EqExcept k (dictSet d j v) (dictSet d' j v) := by
  induction h with
  | here x y d =>
    rw [dictSet, dictSet, if_neg (Ne.symm hj), if_neg (Ne.symm hj)]
    exact .here x y _
  | there he h ih =>
    rw [dictSet, dictSet]
    split
    · exact .there hj h
    · exact .there he ih

variable {s : Bindings} {entries : List (String × Node)}

/-- A value that is overwritten later does not matter. -/
lemma dictArgs_eqExcept (hk : ∃ e ∈ entries, e.1 = k) (h : EqExcept k d d') :
    dictArgs lib el s entries d = dictArgs lib el s entries d' := by
  induction entries generalizing d d' with
  | nil => simp at hk
  | cons e entries ih =>
    rw [dictArgs, dictArgs]
    refine bind_congr fun x => ?_
    by_cases he : e.1 = k
    · rw [he, h.dictSet_self]
    · have hk' : ∃ e ∈ entries, e.1 = k := by
        obtain ⟨e', he', rfl⟩ := hk
        rcases mem_cons.1 he' with rfl | he'
        · exact absurd rfl he
        · exact ⟨e', he', rfl⟩
      exact ih hk' (h.dictSet_other he x.asBl)

variable {s' : Bindings}

lemma bindKeys_other (hk : ¬ ∃ e ∈ entries, e.1 = k) (h : bindKeys lib el entries s = .ok s') :
    s' k = s k := by
  induction entries generalizing s with
  | nil =>
    cases h
    rfl
  | cons e entries ih =>
    have hk' : ¬ ∃ e ∈ entries, e.1 = k := fun ⟨e', he', hk'⟩ => hk ⟨e', mem_cons_of_mem _ he', hk'⟩
    rw [bindKeys] at h
    split at h
    · obtain ⟨x, -, h⟩ := bind_eq_ok.1 h
      rw [ih hk' h, update_of_ne fun hek => hk ⟨e, mem_cons_self, hek.symm⟩]
    · exact ih hk' h

lemma bindKeys_isSome
    (h : bindKeys lib el entries s = .ok s') (hs : (s k).isSome) : (s' k).isSome := by
  induction entries generalizing s with
  | nil =>
    cases h
    exact hs
  | cons e entries ih =>
    rw [bindKeys] at h
    split at h
    · obtain ⟨x, -, h⟩ := bind_eq_ok.1 h
      refine ih h ?_
      by_cases hk : k = e.1
      · simp [hk]
      · rwa [update_of_ne hk]
    · exact ih h hs

/-! ### Keys in order -/

/-- No key that is an identifier comes after one that is not. -/
def KeysOrdered (keys : List (Option String)) : Prop :=
  keys.reduceOption.Pairwise fun k k' => validIdentifier k' = true → validIdentifier k = true

instance (keys : List (Option String)) : Decidable (KeysOrdered keys) :=
  inferInstanceAs (Decidable (List.Pairwise _ _))

/-- Without identifiers among the keys there are no lets. -/
lemma dictRef_of_not_valid (h : ∀ e ∈ entries, ¬ validIdentifier e.1) (s : Bindings) (d : Row) :
    dictRef lib el entries s d = dictArgs lib el s entries d ∧
      bindKeys lib el entries s = .ok s := by
  induction entries generalizing d with
  | nil => exact ⟨rfl, rfl⟩
  | cons e entries ih =>
    have he := h e mem_cons_self
    have ih' := ih fun e' h' => h e' (mem_cons_of_mem _ h')
    simp only [dictRef, dictArgs, bindKeys, if_neg he]
    exact ⟨bind_congr fun x => (ih' _).1, (ih' d).2⟩

/-- With the identifiers first, a lowered literal makes the dictionary of the reference. -/
lemma dictRef_eq (h : entries.Pairwise fun e e' => validIdentifier e'.1 → validIdentifier e.1)
    (s : Bindings) (d : Row) :
    dictRef lib el entries s d =
      bindKeys lib el entries s >>= fun s' => dictArgs lib el s' entries d := by
  induction entries generalizing s d with
  | nil => rfl
  | cons e entries ih =>
    obtain ⟨hhead, htail⟩ := pairwise_cons.1 h
    by_cases he : validIdentifier e.1 = true
    · simp only [dictRef, bindKeys, if_pos he, bind_assoc]
      refine bind_congr fun x => ?_
      rw [ih htail]
      cases hb : bindKeys lib el entries (update s e.1 (some x)) with
      | error err => rfl
      | ok s' =>
        -- the key still has its value, or is written again by a later entry
        rw [ok_bind, ok_bind, dictArgs, if_pos he, eval]
        by_cases hk : ∃ e' ∈ entries, e'.1 = e.1
        · obtain ⟨y, hy⟩ := Option.isSome_iff_exists.1
            (bindKeys_isSome (k := e.1) hb (by simp))
          rw [hy]
          exact dictArgs_eqExcept hk (eqExcept_dictSet e.1 x.asBl y.asBl d)
        · rw [bindKeys_other hk hb, update_self]
          rfl
    · have hall : ∀ e' ∈ e :: entries, ¬ validIdentifier e'.1 = true := by
        intro e' he'
        rcases mem_cons.1 he' with rfl | he'
        · exact he
        · exact fun hv => he (hhead e' he' hv)
      obtain ⟨href, hbind⟩ := @dictRef_of_not_valid lib el _ hall s d
      rw [href, hbind, ok_bind]

variable {keys : List (Option String)}

lemma map_fst_mapEntries {vs : List Node}
    (h : vs.length = keys.length) : (mapEntries keys vs).map Prod.fst = keys.reduceOption := by
  induction keys generalizing vs with
  | nil => simp [mapEntries]
  | cons k keys ih =>
    cases vs with
    | nil => simp at h
    | cons v vs =>
      have ih' := ih (Nat.succ.inj h)
      cases k with
      | none | some k => simpa [mapEntries] using ih'

/-- Whatever stands as the values of a literal with these keys, each is evaluated in the
scope of the keys before it. -/
def SeesEarlierKeys (keys : List (Option String)) : Prop :=
  ∀ (lib : Lib) (el : Option VmValue) (s : Bindings) (vs : List Node), vs.length = keys.length →
    eval lib (lowerMap keys vs) s el =
      (fun d => .bl (.dictionary d)) <$> dictRef lib el (mapEntries keys vs) s []

lemma seesEarlierKeys_of_ordered (h : KeysOrdered keys) : SeesEarlierKeys keys := by
  intro lib el s vs hlen
  have hentries : (mapEntries keys vs).Pairwise fun e e' =>
      validIdentifier e'.1 = true → validIdentifier e.1 = true := by
    rw [KeysOrdered, ← map_fst_mapEntries hlen, pairwise_map] at h
    exact h
  rw [eval_lowerMap, dictRef_eq hentries, map_bind]

/-! ### A literal that looks at a later key -/

/-- The keys after the first one that is no identifier. -/
def afterFirst : List (Option String) → List String
  | [] => []
  | none :: keys => afterFirst keys
  | some k :: keys => if validIdentifier k then afterFirst keys else keys.reduceOption

lemma keysOrdered_of_afterFirst
    (h : ∀ b ∈ afterFirst keys, ¬ validIdentifier b) : KeysOrdered keys := by
  induction keys with
  | nil => exact List.Pairwise.nil
  | cons k keys ih =>
    cases k with
    | none => exact ih h
    | some k =>
      rw [afterFirst] at h
      rw [KeysOrdered, reduceOption_cons_of_some, pairwise_cons]
      split at h
      case isTrue hk => exact ⟨fun _ _ _ => hk, ih h⟩
      case isFalse hk =>
        refine ⟨fun b hb hv => absurd hv (h b hb), ?_⟩
        exact pairwise_of_forall_mem_list fun _ _ b hb hv => absurd hv (h b hb)

/-- A library with a function that takes nothing but the number 1. -/
def probeLib : Lib where
  fn _ args :=
    match args with
    | [.bl (.number q)] => if q = 1 then .ok (.bl .null) else argTypeError (.bl (.number q))
    | _ => callError
  native _ _ := callError
  component _ _ := none

/-- `probe(b)`. -/
def probe (b : String) : Node := .fn "probe" [.ident b]

/-- Identifiers are bound to 0 before the first other key and to 1 after it; the other
keys probe `b`. -/
def probeValues (b : String) (after : Bool) : List (Option String) → List Node
  | [] => []
  | none :: keys => .nil :: probeValues b after keys
  | some k :: keys =>
    if validIdentifier k then .const (.number (if after then 1 else 0)) :: probeValues b after keys
    else probe b :: probeValues b true keys

lemma eval_probe (b : String) (s : Bindings) (el : Option VmValue) :
    eval probeLib (probe b) s el = eval probeLib (.ident b) s el >>= fun v =>
      probeLib.fn "probe" [v] := by
  rw [probe, eval_fn_one, callFn_of_not_mem (by decide)]

section Probe

variable {b : String} {el : Option VmValue}

lemma length_probeValues (after : Bool) (keys : List (Option String)) :
    (probeValues b after keys).length = keys.length := by
  induction keys generalizing after with
  | nil => rfl
  | cons k keys ih =>
    cases k with
    | none => simp [probeValues, ih]
    | some k =>
      rw [probeValues]
      split <;> simp [ih]

lemma mapEntries_some (k : String) (keys : List (Option String)) (v : Node) (vs : List Node) :
    mapEntries (some k :: keys) (v :: vs) = (k, v) :: mapEntries keys vs := rfl

variable {keys : List (Option String)}

/-- The reference comes to the first probe while `b` is not bound to 1. -/
lemma dictRef_probe (h : afterFirst keys ≠ []) (s : Bindings)
    (hs : ∀ v, s b = some v → v = .bl (.number 0)) (d : Row) :
    ∃ e, dictRef probeLib el (mapEntries keys (probeValues b false keys)) s d = .error e := by
  induction keys generalizing s d with
  | nil => exact absurd rfl h
  | cons k keys ih =>
    cases k with
    | none => exact ih h s hs d
    | some k =>
      rw [afterFirst] at h
      rw [probeValues]
      split
      case isTrue hk =>
        rw [if_pos hk] at h
        rw [mapEntries_some, dictRef, eval, ok_bind, if_pos hk]
        refine ih h _ (fun v hv => ?_) _
        by_cases hb : b = k
        · subst hb
          simpa using hv.symm
        · rw [update_of_ne hb] at hv
          exact hs v hv
      case isFalse hk =>
        rw [mapEntries_some, dictRef, eval_probe, eval]
        cases hb : s b with
        | none => exact ⟨_, rfl⟩
        | some v =>
          have hprobe : probeLib.fn "probe" [.bl (.number 0)] = argTypeError (.bl (.number 0)) := by
            simp [probeLib]
          rw [hs v hb, ok_bind, hprobe]
          exact ⟨_, rfl⟩

/-- All lets of the probing literal succeed, and leave `b` bound to 1. -/
lemma bindKeys_probe_after (hb : validIdentifier b) (keys : List (Option String))
    (s : Bindings) (hs : b ∈ keys.reduceOption ∨ s b = some (.bl (.number 1))) :
    ∃ s', bindKeys probeLib el (mapEntries keys (probeValues b true keys)) s = .ok s' ∧
      s' b = some (.bl (.number 1)) := by
  induction keys generalizing s with
  | nil => exact ⟨s, rfl, by simpa using hs⟩
  | cons k keys ih =>
    cases k with
    | none => exact ih s hs
    | some k =>
      rw [reduceOption_cons_of_some, mem_cons] at hs
      rw [probeValues]
      split
      case isTrue hk =>
        rw [mapEntries_some, bindKeys, if_pos hk, eval, ok_bind]
        refine ih _ ?_
        by_cases hbk : b = k
        · exact .inr (by simp [hbk])
        · rw [update_of_ne hbk]
          exact hs.imp_left fun h => h.resolve_left hbk
      case isFalse hk =>
        rw [mapEntries_some, bindKeys, if_neg hk]
        refine ih s (hs.imp_left fun h => h.resolve_left ?_)
        rintro rfl
        exact hk hb

lemma bindKeys_probe (hb : validIdentifier b) (h : b ∈ afterFirst keys) (s : Bindings) :
    ∃ s', bindKeys probeLib el (mapEntries keys (probeValues b false keys)) s = .ok s' ∧
      s' b = some (.bl (.number 1)) := by
  induction keys generalizing s with
  | nil => simp [afterFirst] at h
  | cons k keys ih =>
    cases k with
    | none => exact ih h s
    | some k =>
      rw [afterFirst] at h
      rw [probeValues]
      split
      case isTrue hk =>
        rw [if_pos hk] at h
        rw [mapEntries_some, bindKeys, if_pos hk, eval, ok_bind]
        exact ih h _
      case isFalse hk =>
        rw [if_neg hk] at h
        rw [mapEntries_some, bindKeys, if_neg hk]
        exact bindKeys_probe_after hb keys s (.inl h)

variable {entries : List (String × Node)} {s : Bindings}

/-- The identifiers among the keys are bound by the lets. -/
lemma bindKeys_bound {lib : Lib} {s' : Bindings} (h : bindKeys lib el entries s = .ok s') :
    ∀ e ∈ entries, validIdentifier e.1 → (s' e.1).isSome := by
  induction entries generalizing s with
  | nil => simp
  | cons e entries ih =>
    rw [bindKeys] at h
    split at h
    · obtain ⟨x, -, h⟩ := bind_eq_ok.1 h
      exact forall_mem_cons.2 ⟨fun _ => bindKeys_isSome h (by simp), ih h⟩
    case isFalse he => exact forall_mem_cons.2 ⟨fun hv => absurd hv he, ih h⟩

lemma dictArgs_ok {lib : Lib} (hbound : ∀ e ∈ entries, validIdentifier e.1 → (s e.1).isSome)
    (hother : ∀ e ∈ entries, ¬ validIdentifier e.1 → ∃ v, eval lib e.2 s el = .ok v)
    (d : Row) : ∃ r, dictArgs lib el s entries d = .ok r := by
  induction entries generalizing d with
  | nil => exact ⟨d, rfl⟩
  | cons e entries ih =>
    obtain ⟨hb, hbound⟩ := forall_mem_cons.1 hbound
    obtain ⟨ho, hother⟩ := forall_mem_cons.1 hother
    rw [dictArgs]
    split
    case isTrue he =>
      obtain ⟨v, hv⟩ := Option.isSome_iff_exists.1 (hb he)
      rw [eval, hv]
      exact ih hbound hother _
    case isFalse he =>
      obtain ⟨v, hv⟩ := ho he
      rw [hv]
      exact ih hbound hother _

lemma value_mapEntries_probeValues {after : Bool} :
    ∀ e ∈ mapEntries keys (probeValues b after keys), ¬ validIdentifier e.1 → e.2 = probe b := by
  induction keys generalizing after with
  | nil => simp [mapEntries]
  | cons k keys ih =>
    cases k with
    | none => exact ih
    | some k =>
      rw [probeValues]
      split
      case isTrue hk => exact forall_mem_cons.2 ⟨fun h => absurd hk h, ih⟩
      case isFalse hk => exact forall_mem_cons.2 ⟨fun _ => rfl, ih⟩

end Probe

end Sees

/-! ## Paths -/

section Paths

/-- The value a path leads to. -/
def findPath : BlValue → List BlValue → Option BlValue
  | v, [] => some v
  | .dictionary d, .string k :: path => (d.lookup k).bind (findPath · path)
  | _, _ => none

def getValueFn : BlValue → BlValue → Result BlValue
  | .dictionary d, .string k => .ok ((d.lookup k).getD .null)
  | .dictionary d, .list path => .ok ((findPath (.dictionary d) path).getD .null)
  | .dictionary _, key => .error key.argTypeError
  | d, _ => .error d.argTypeError

def dictWith (d : Row) (key : String) (val : BlValue) : Row :=
  dictSet (d.foldl (fun out e => dictSet out e.1 e.2) []) key val

/-- The value as a dictionary, or a new one. -/
def innerDict : Option BlValue → Row
  | some (.dictionary d) => d
  | _ => []

def dictPutPath (d : Row) (val : BlValue) : List BlValue → Result Row
  | [] => .ok d
  | [.string k] => .ok (dictWith d k val)
  | .string k :: path => do
    let updated ← dictPutPath (innerDict (d.lookup k)) val path
    .ok (dictWith d k (.dictionary updated))
  | _ => .error (.typeError "dictionaryPut" "path keys must be strings")

def dictionaryPutFn : BlValue → BlValue → BlValue → Result BlValue
  | .dictionary d, .string k, val =>
    if k = "" then .error (.typeError "dictionaryPut" "empty key") else
      .ok (.dictionary (dictWith d k val))
  | .dictionary d, .list path, val => .dictionary <$> dictPutPath d val path
  | .dictionary _, key, _ => .error key.argTypeError
  | d, _, _ => .error d.argTypeError

/-! ### Setting a key -/

variable {d : Row} {k j : String} {v w : BlValue}

lemma lookup_dictSet : (dictSet d k v).lookup j = if j = k then some v else d.lookup j := by
  induction d with
  | nil => grind [dictSet]
  | cons e d ih => grind [dictSet]

lemma dictSet_dictSet : dictSet (dictSet d k v) k w = dictSet d k w := by
  induction d with
  | nil => simp [dictSet]
  | cons e d ih => grind [dictSet]

lemma dictSet_of_lookup (h : d.lookup k = some v) : dictSet d k v = d := by
  induction d with
  | nil => cases h
  | cons e d ih => grind [dictSet]

lemma mem_keys_dictSet : j ∈ (dictSet d k v).map Prod.fst ↔ j = k ∨ j ∈ d.map Prod.fst := by
  induction d with
  | nil => simp [dictSet]
  | cons e d ih => grind [dictSet]

lemma nodup_dictSet (hd : (d.map Prod.fst).Nodup) : ((dictSet d k v).map Prod.fst).Nodup := by
  induction d with
  | nil => simp [dictSet]
  | cons e d ih => grind [dictSet, mem_keys_dictSet]

lemma dictSet_of_not_mem (h : k ∉ d.map Prod.fst) : dictSet d k v = d ++ [(k, v)] := by
  induction d with
  | nil => rfl
  | cons e d ih => grind [dictSet]

/-- The copy of a dictionary is the dictionary. -/
lemma dictWith_eq (hd : (d.map Prod.fst).Nodup) : dictWith d k v = dictSet d k v := by
  have hcopy : d.foldl (fun out e => dictSet out e.1 e.2) [] = d := by
    induction d using reverseRecOn with
    | nil => rfl
    | append_singleton d e ih =>
      rw [map_append, nodup_append] at hd
      rw [foldl_append, ih hd.1, foldl_cons, foldl_nil, dictSet_of_not_mem]
      exact fun he => hd.2.2 _ he _ (mem_singleton_self _) rfl
  rw [dictWith, hcopy]

/-! ### What a path sees -/

/-- A value written at the end of a path. -/
def putAt (v : BlValue) : List String → Option BlValue → BlValue
  | [], _ => v
  | k :: p, o => .dictionary (dictSet (innerDict o) k (putAt v p ((innerDict o).lookup k)))

/-- The dictionaries on the way have every key once. -/
def KeyedOn : List String → Option BlValue → Prop
  | [], _ => True
  | k :: p, o => ((innerDict o).map Prod.fst).Nodup ∧ KeyedOn p ((innerDict o).lookup k)

variable {p q : List String} {o : Option BlValue}

lemma keyedOn_putAt (h : KeyedOn p o) : KeyedOn p (some (putAt v p o)) := by
  induction p generalizing o with
  | nil => trivial
  | cons k p ih =>
    refine ⟨nodup_dictSet h.1, ?_⟩
    rw [putAt, innerDict, lookup_dictSet, if_pos rfl]
    exact ih h.2

lemma dictPutPath_eq (h : KeyedOn (k :: p) (some (.dictionary d))) :
    dictPutPath d v ((k :: p).map .string) = .ok (dictSet d k (putAt v p (d.lookup k))) := by
  induction p generalizing d k with
  | nil => exact congrArg _ (dictWith_eq h.1)
  | cons j p ih =>
    rw [map_cons, map_cons, dictPutPath, ← map_cons, ih (d := innerDict (d.lookup k)) h.2]
    · exact congrArg _ (dictWith_eq h.1)
    · exact cons_ne_nil _ _

lemma findPath_putAt : findPath (putAt v p o) (p.map .string) = some v := by
  induction p generalizing o with
  | nil => rfl
  | cons k p ih =>
    rw [putAt, map_cons, findPath, lookup_dictSet, if_pos rfl]
    exact ih

lemma putAt_putAt : putAt w p (some (putAt v p o)) = putAt w p o := by
  induction p generalizing o with
  | nil => rfl
  | cons k p ih => simp only [putAt, innerDict, lookup_dictSet, if_true, ih, dictSet_dictSet]

lemma findPath_cons : o.bind (findPath · (.string k :: q.map .string)) =
    ((innerDict o).lookup k).bind (findPath · (q.map .string)) := by
  rcases o with - | (_ | _)
  all_goals rfl

lemma putAt_findPath {x : BlValue} (h : findPath x (p.map .string) = some v) :
    putAt v p (some x) = x := by
  induction p generalizing x with
  | nil => exact (Option.some.inj h).symm
  | cons k p ih =>
    cases x with
    | dictionary d =>
      obtain ⟨y, hy, hfind⟩ := Option.bind_eq_some_iff.1 h
      rw [putAt, innerDict, hy, ih hfind, dictSet_of_lookup hy]
    | _ => cases h

/-- A path that leads elsewhere finds what it found. -/
lemma findPath_putAt_other (hq : ¬ q <+: p) (hp : ¬ p <+: q) :
    findPath (putAt v p o) (q.map .string) = o.bind (findPath · (q.map .string)) := by
  induction p generalizing o q with
  | nil => exact absurd nil_prefix hp
  | cons k p ih =>
    cases q with
    | nil => exact absurd nil_prefix hq
    | cons j q =>
      rw [putAt, map_cons, findPath, lookup_dictSet, findPath_cons]
      split
      · rename_i hj
        rw [cons_prefix_cons, not_and] at hp hq
        rw [hj]
        exact ih (hq hj) (hp hj.symm)
      · rfl

/-- What is put at a path is what the path reads; what was there before does not matter;
putting what is there changes nothing; and other paths read what they read. -/
theorem dictionary_paths (hp : p ≠ []) (hd : KeyedOn p (some (.dictionary d))) (v : BlValue) :
    ∃ d', dictionaryPutFn (.dictionary d) (.list (p.map .string)) v = .ok (.dictionary d') ∧
      getValueFn (.dictionary d') (.list (p.map .string)) = .ok v ∧
      (∀ w, dictionaryPutFn (.dictionary d') (.list (p.map .string)) w =
        dictionaryPutFn (.dictionary d) (.list (p.map .string)) w) ∧
      (findPath (.dictionary d) (p.map .string) = some v → d' = d) ∧
      ∀ q : List String, ¬ q <+: p → ¬ p <+: q →
        getValueFn (.dictionary d') (.list (q.map .string)) = getValueFn (.dictionary d)
          (.list (q.map .string)) := by
  obtain ⟨k, p, rfl⟩ := exists_cons_of_ne_nil hp
  have hkeyed : KeyedOn (k :: p) (some (.dictionary (dictSet d k (putAt v p (d.lookup k))))) :=
    keyedOn_putAt hd
  refine ⟨dictSet d k (putAt v p (d.lookup k)), ?_, ?_, fun w => ?_, fun h => ?_, fun q hq hp => ?_⟩
  · rw [dictionaryPutFn, dictPutPath_eq hd]
    rfl
  · exact congrArg (fun o => Except.ok (o.getD .null))
      (@findPath_putAt v (k :: p) (some (.dictionary d)))
  · rw [dictionaryPutFn, dictionaryPutFn, dictPutPath_eq hd, dictPutPath_eq hkeyed]
    exact congrArg Except.ok (@putAt_putAt v w (k :: p) (some (.dictionary d)))
  · exact BlValue.dictionary.inj (putAt_findPath h)
  · exact congrArg (fun o => Except.ok (o.getD .null))
      (findPath_putAt_other (o := some (.dictionary d)) hq hp)

/-- A person with an address. -/
def addressed : Row :=
  [("name", .string "n"), ("address", .dictionary [("city", .string "c"), ("street", .string "s")])]

/-- Another city is put into the address, and the street stays. -/
theorem dictionary_paths_address : ∃ d',
    dictionaryPutFn (.dictionary addressed) (.list [.string "address", .string "city"])
      (.string "d") = .ok (.dictionary d') ∧
    getValueFn (.dictionary d') (.list [.string "address", .string "city"]) = .ok (.string "d") ∧
    getValueFn (.dictionary d') (.list [.string "address", .string "street"]) =
      .ok (.string "s") := by
  obtain ⟨d', hput, hget, -, -, hother⟩ := dictionary_paths (p := ["address", "city"])
    (d := addressed) (by decide) ⟨by decide, by decide, trivial⟩ (.string "d")
  exact ⟨d', hput, hget, hother ["address", "street"] (by decide) (by decide)⟩

end Paths

end Blkit
