import Mathlib.Data.List.Perm.Basic

/-!
# Fallible computations

Loops over a list in the error monad: when such a loop succeeds, and with what.
-/

namespace Blkit.Fallible

open List

universe u

variable {ε α β : Type u}

@[simp] lemma ok_bind (a : α) (f : α → Except ε β) : (Except.ok a >>= f) = f a := rfl

@[simp] lemma error_bind (e : ε) (f : α → Except ε β) : (Except.error e >>= f) = .error e := rfl

@[simp] lemma map_ok (a : α) (f : α → β) : f <$> (Except.ok a : Except ε α) = .ok (f a) := rfl

@[simp] lemma map_error (e : ε) (f : α → β) : f <$> (Except.error e : Except ε α) = .error e := rfl

@[simp] lemma pure_eq_ok (a : α) : (pure a : Except ε α) = .ok a := rfl

variable {x : Except ε α} {f : α → Except ε β} {b : β}

lemma bind_eq_ok : (x >>= f) = .ok b ↔ ∃ a, x = .ok a ∧ f a = .ok b := by
  cases x <;> simp

/-- The last round of a loop that succeeds. -/
lemma foldlM_concat_eq_ok {f : β → α → Except ε β} {s s' : β} {l : List α} {a : α} :
    (l ++ [a]).foldlM f s = .ok s' ↔ ∃ s₀, l.foldlM f s = .ok s₀ ∧ f s₀ a = .ok s' := by
  simp [foldlM_append, bind_eq_ok]

lemma mapM_cons (f : α → Except ε β) (a : α) (l : List α) :
    (a :: l).mapM f = f a >>= fun b => l.mapM f >>= fun bs => .ok (b :: bs) :=
  List.mapM_cons

variable {l : List α} {bs : List β}

/-- A loop that collects results succeeds with one result per element. -/
lemma mapM_eq_ok : l.mapM f = .ok bs ↔ List.Forall₂ (fun a b => f a = .ok b) l bs := by
  induction l generalizing bs with
  | nil => simp [forall₂_nil_left_iff, eq_comm]
  | cons a l ih =>
    rw [mapM_cons, bind_eq_ok, forall₂_cons_left_iff]
    simp only [bind_eq_ok, ih, Except.ok.injEq]
    constructor
    · rintro ⟨b, hb, bs', hbs, rfl⟩
      exact ⟨b, bs', hb, hbs, rfl⟩
    · rintro ⟨b, bs', hb, hbs, rfl⟩
      exact ⟨b, hb, bs', hbs, rfl⟩

/-- Collecting over a permuted list collects the same results, permuted. -/
lemma mapM_perm {l' : List α} (hl : l.Perm l') (h : l.mapM f = .ok bs) :
    ∃ bs', l'.mapM f = .ok bs' ∧ bs.Perm bs' := by
  obtain ⟨bs', h', hbs⟩ := perm_comp_forall₂ hl.symm (mapM_eq_ok.1 h)
  exact ⟨bs', mapM_eq_ok.2 h', hbs.symm⟩

lemma exists_result_of_mem (h : l.mapM f = .ok bs) : ∀ a ∈ l, ∃ b ∈ bs, f a = .ok b := by
  induction mapM_eq_ok.1 h with
  | nil => simp
  | cons hab _ ih => grind [mapM_eq_ok]

lemma exists_source_of_mem (h : l.mapM f = .ok bs) : ∀ b ∈ bs, ∃ a ∈ l, f a = .ok b := by
  induction mapM_eq_ok.1 h with
  | nil => simp
  | cons hab _ ih => grind [mapM_eq_ok]

/-- A loop that collects results fails when one of its elements does. -/
lemma mapM_eq_error : (∃ e, l.mapM f = .error e) ↔ ∃ a ∈ l, ∃ e, f a = .error e := by
  induction l with
  | nil => simp
  | cons a l ih =>
    rw [mapM_cons]
    cases ha : f a with
    | error e => simp [ha]
    | ok b =>
      cases hl : l.mapM f with
      | error _ | ok _ => simpa [ha, hl] using ih

variable {γ : Type u} {g : γ → α} {h : γ → β}

/-- A loop over elements that all succeed. -/
lemma mapM_map_ok {l : List γ}
    (hl : ∀ c ∈ l, f (g c) = .ok (h c)) : (l.map g).mapM f = .ok (l.map h) := by
  rw [mapM_eq_ok, forall₂_map_left_iff, forall₂_map_right_iff]
  exact forall₂_same.2 hl

lemma foldlM_map_ok {f : β → α → Except ε β} {h : β → γ → β} {l : List γ}
    (hl : ∀ c ∈ l, ∀ b, f b (g c) = .ok (h b c)) (b : β) :
    (l.map g).foldlM f b = .ok (l.foldl h b) := by
  induction l generalizing b with
  | nil => rfl
  | cons c l ih =>
    rw [forall_mem_cons] at hl
    rw [map_cons, foldlM_cons, hl.1, ok_bind, ih hl.2, foldl_cons]

lemma map_mapM (g : β → γ) (f : α → Except ε β) (l : List α) :
    map g <$> l.mapM f = l.mapM fun a => g <$> f a := by
  induction l with
  | nil => rfl
  | cons a l ih =>
    rw [mapM_cons, mapM_cons, ← ih]
    cases f a with
    | error e => rfl
    | ok b => cases l.mapM f <;> rfl

lemma map_eq_ok {f : α → β} : f <$> x = .ok b ↔ ∃ a, x = .ok a ∧ b = f a := by
  cases x <;> simp [eq_comm]

/-- Two loops whose rounds succeed together. -/
lemma mapM_eq_ok_of_forall {g : α → Except ε γ}
    (hfg : ∀ a b, f a = .ok b ↔ ∃ c, g a = .ok c ∧ b = h c) :
    l.mapM f = .ok bs ↔ ∃ cs, l.mapM g = .ok cs ∧ bs = cs.map h := by
  induction l generalizing bs with
  | nil => simp [eq_comm]
  | cons a l ih =>
    simp only [mapM_cons, bind_eq_ok, Except.ok.injEq, hfg, ih]
    constructor
    · rintro ⟨_, ⟨c, hc, rfl⟩, _, ⟨cs, hcs, rfl⟩, rfl⟩
      exact ⟨c :: cs, ⟨c, hc, cs, hcs, rfl⟩, rfl⟩
    · rintro ⟨_, ⟨c, hc, cs, hcs, rfl⟩, rfl⟩
      exact ⟨_, ⟨c, hc, rfl⟩, _, ⟨cs, hcs, rfl⟩, rfl⟩

lemma mapM_append_eq_ok {l' : List α} : (l ++ l').mapM f = .ok bs ↔
      ∃ cs cs', l.mapM f = .ok cs ∧ l'.mapM f = .ok cs' ∧ bs = cs ++ cs' := by
  rw [mapM_append, bind_eq_ok]
  simp only [bind_eq_ok, pure_eq_ok, Except.ok.injEq]
  constructor
  · rintro ⟨cs, h, cs', h', rfl⟩
    exact ⟨cs, cs', h, h', rfl⟩
  · rintro ⟨cs, cs', h, h', rfl⟩
    exact ⟨cs, h, cs', h', rfl⟩

/-- Collecting over a list that is itself collected in parts is collecting part by
part. -/
lemma mapM_flatten_eq_ok {g : α → Except ε (List β)} {f : β → Except ε γ} {cs : List γ} :
    (l.mapM g >>= fun bss => bss.flatten.mapM f) = .ok cs ↔
      ∃ css, l.mapM (fun a => g a >>= fun bs => bs.mapM f) = .ok css ∧ cs = css.flatten := by
  induction l generalizing cs with
  | nil => simp [eq_comm]
  | cons a l ih =>
    simp only [mapM_cons, bind_eq_ok, Except.ok.injEq] at ih ⊢
    constructor
    · rintro ⟨_, ⟨bs, hbs, bss, hbss, rfl⟩, hall⟩
      obtain ⟨cs, cs', hcs, hcs', rfl⟩ := mapM_append_eq_ok.1 hall
      obtain ⟨css, hcss, rfl⟩ := ih.1 ⟨bss, hbss, hcs'⟩
      exact ⟨cs :: css, ⟨cs, ⟨bs, hbs, hcs⟩, css, hcss, rfl⟩, rfl⟩
    · rintro ⟨_, ⟨cs, ⟨bs, hbs, hcs⟩, css, hcss, rfl⟩, rfl⟩
      obtain ⟨bss, hbss, hcs'⟩ := ih.2 ⟨css, hcss, rfl⟩
      exact ⟨bs :: bss, ⟨bs, hbs, bss, hbss, rfl⟩, mapM_append_eq_ok.2 ⟨cs, _, hcs, hcs', rfl⟩⟩

end Blkit.Fallible
