import Mathlib.Data.List.Lex
import Mathlib.Data.UInt
import Mathlib.Tactic.Ring

/-!
# Byte strings as keys

Byte strings are ordered lexicographically, a proper initial part first.  Numbers that
are written big-endian in a fixed number of bytes compare as the numbers do, the keys
that begin with a given string are an interval, and a part that ends in a byte it does
not contain can be read off a key.
-/

namespace Blkit

open List

instance instLinearOrderUInt8 : LinearOrder UInt8 where
  le_refl _ := UInt8.le_refl _
  le_trans _ _ _ := UInt8.le_trans
  lt_iff_le_not_ge _ _ := by
    rw [UInt8.lt_iff_toNat_lt, UInt8.le_iff_toNat_le, UInt8.le_iff_toNat_le]
    omega
  le_antisymm _ _ := UInt8.le_antisymm
  le_total := UInt8.le_total
  toDecidableLE := inferInstance

/-- The bytes of a string. -/
def bytesOf (s : String) : List UInt8 := s.toByteArray.data.toList

lemma bytesOf_injective : Function.Injective bytesOf := by
  intro s t h
  apply String.toByteArray_inj.1
  apply ByteArray.ext
  exact Array.toList_inj.1 h

/-! ## Lexicographic order -/

section Lex

variable {α : Type} [LinearOrder α] {a b : List α}

/-- Of two strings whose first parts are of one length, the first parts decide. -/
lemma append_lt_append_of_length {x y : List α} (h : a.length = b.length) :
    a ++ x < b ++ y ↔ a < b ∨ a = b ∧ x < y := by
  induction a generalizing b with
  | nil =>
    obtain rfl := length_eq_zero_iff.1 h.symm
    simp
  | cons c a ih =>
    cases b with
    | nil => cases h
    | cons d b =>
      rw [cons_append, cons_append, cons_lt_cons_iff, cons_lt_cons_iff,
        ih (Nat.succ.inj h), cons.injEq]
      tauto

end Lex

/-! ## Numbers -/

section BigEndian

/-- A number in `w` bytes, the most significant byte first. -/
def bigEndian : (w n : Nat) → List UInt8
  | 0, _ => []
  | w + 1, n => UInt8.ofNat (n / 256 ^ w) :: bigEndian w (n % 256 ^ w)

/-- The number that bytes are, the most significant byte first. -/
def ofBigEndian (bs : List UInt8) : Nat := bs.foldl (fun n b => n * 256 + b.toNat) 0

@[simp] lemma length_bigEndian (w n : Nat) : (bigEndian w n).length = w := by
  induction w generalizing n with
  | zero => rfl
  | succ w ih => rw [bigEndian, length_cons, ih]

variable {w n : Nat}

lemma toNat_digit (h : n < 256 ^ (w + 1)) : (UInt8.ofNat (n / 256 ^ w)).toNat = n / 256 ^ w := by
  rw [UInt8.toNat_ofNat', Nat.mod_eq_of_lt]
  rw [Nat.div_lt_iff_lt_mul (Nat.pow_pos (by decide))]
  rwa [Nat.pow_succ, Nat.mul_comm] at h

variable {m : Nat}

/-- Numbers that fit compare as their bytes do. -/
lemma bigEndian_lt_iff (hn : n < 256 ^ w) (hm : m < 256 ^ w) :
    bigEndian w n < bigEndian w m ↔ n < m := by
  induction w generalizing n m with
  | zero =>
    rw [Nat.pow_zero, Nat.lt_one_iff] at hn hm
    simp [bigEndian, hn, hm]
  | succ w ih =>
    have hpos : 0 < 256 ^ w := Nat.pow_pos (by decide)
    rw [bigEndian, bigEndian, cons_lt_cons_iff, ih (Nat.mod_lt _ hpos) (Nat.mod_lt _ hpos),
      UInt8.lt_iff_toNat_lt, ← UInt8.toNat_inj, toNat_digit hn, toNat_digit hm]
    have hn' := Nat.div_add_mod n (256 ^ w)
    have hm' := Nat.div_add_mod m (256 ^ w)
    constructor
    · rintro (h | ⟨h, hr⟩)
      · exact Nat.lt_of_div_lt_div h
      · rw [← hn', ← hm', h]
        omega
    · intro h
      rcases lt_or_eq_of_le (Nat.div_le_div_right (c := 256 ^ w) h.le) with h' | h'
      · exact .inl h'
      · refine .inr ⟨h', ?_⟩
        rw [← hn', ← hm', h'] at h
        omega

lemma foldl_bigEndian (h : n < 256 ^ w) (a : Nat) :
    (bigEndian w n).foldl (fun n b => n * 256 + b.toNat) a = a * 256 ^ w + n := by
  induction w generalizing n a with
  | zero =>
    rw [Nat.pow_zero, Nat.lt_one_iff] at h
    simp [bigEndian, h]
  | succ w ih =>
    have hpos : 0 < 256 ^ w := Nat.pow_pos (by decide)
    rw [bigEndian, foldl_cons, ih (Nat.mod_lt _ hpos), toNat_digit h, Nat.pow_succ]
    have hn := Nat.div_add_mod n (256 ^ w)
    calc (a * 256 + n / 256 ^ w) * 256 ^ w + n % 256 ^ w
        = a * 256 * 256 ^ w + (256 ^ w * (n / 256 ^ w) + n % 256 ^ w) := by ring
      _ = a * (256 ^ w * 256) + n := by rw [hn]; ring

/-- Reading a number back. -/
lemma ofBigEndian_bigEndian (h : n < 256 ^ w) : ofBigEndian (bigEndian w n) = n := by
  rw [ofBigEndian, foldl_bigEndian h, Nat.zero_mul, Nat.zero_add]

lemma bigEndian_inj (hn : n < 256 ^ w) (hm : m < 256 ^ w) :
    bigEndian w n = bigEndian w m ↔ n = m := by
  constructor
  · intro h
    rw [← ofBigEndian_bigEndian hn, h, ofBigEndian_bigEndian hm]
  · rintro rfl
    rfl

end BigEndian

/-! ## Keys that begin with a string -/

section Range

/-- The smallest string greater than every string that begins with the given one: the
last byte that can be incremented is, and what follows it is dropped. -/
def upperBound : List UInt8 → Option (List UInt8)
  | [] => none
  | c :: p =>
    match upperBound p with
    | some u => some (c :: u)
    | none => if c < 255 then some [c + 1] else none

variable {c d : UInt8}

lemma lt_add_one_iff (h : c < 255) : d < c + 1 ↔ d ≤ c := by
  rw [UInt8.lt_iff_toNat_lt] at h
  have h255 : (255 : UInt8).toNat = 255 := rfl
  have hadd : (c + 1).toNat = c.toNat + 1 := by
    rw [UInt8.toNat_add]
    have h1 : (1 : UInt8).toNat = 1 := rfl
    omega
  rw [UInt8.lt_iff_toNat_lt, UInt8.le_iff_toNat_le, hadd]
  omega

variable {p k : List UInt8}

lemma le_cons_iff : c :: p ≤ d :: k ↔ c < d ∨ c = d ∧ p ≤ k := by
  rw [le_iff_lt_or_eq, le_iff_lt_or_eq, cons_lt_cons_iff, cons.injEq]
  tauto

/-- The strings between a string and its upper bound are those that begin with it. -/
lemma between_upperBound_iff : (p ≤ k ∧ ∀ u ∈ upperBound p, k < u) ↔ p <+: k := by
  induction p generalizing k with
  | nil =>
    have : [] ≤ k := by
      rw [← not_lt]
      exact not_lt_nil k
    simp [upperBound, this]
  | cons c p ih =>
    cases k with
    | nil =>
      have : ¬ c :: p ≤ [] := by
        rw [not_le]
        exact nil_lt_cons c p
      simp [this]
    | cons d k =>
      rw [le_cons_iff, cons_prefix_cons, ← ih, upperBound]
      cases hu : upperBound p with
      | some u =>
        simp only [Option.mem_def, Option.some.injEq, forall_eq', cons_lt_cons_iff]
        constructor
        · rintro ⟨h | ⟨rfl, hp⟩, h' | ⟨hd, hk⟩⟩
          · exact absurd h' (not_lt_of_gt h)
          · exact absurd h (by rw [hd]; exact lt_irrefl _)
          · exact absurd h' (lt_irrefl _)
          · exact ⟨rfl, hp, hk⟩
        · rintro ⟨rfl, hp, hk⟩
          exact ⟨.inr ⟨rfl, hp⟩, .inr ⟨rfl, hk⟩⟩
      | none =>
        by_cases hc : c < 255
        · simp only [hc, if_true, Option.mem_def, Option.some.injEq, forall_eq',
            cons_lt_cons_iff, lt_add_one_iff hc, reduceCtorEq, false_imp_iff, implies_true,
            and_true]
          constructor
          · rintro ⟨h | ⟨rfl, hp⟩, h' | ⟨-, hk⟩⟩
            · exact absurd h' (not_le_of_gt h)
            · exact absurd hk (not_lt_nil _)
            · exact ⟨rfl, hp⟩
            · exact absurd hk (not_lt_nil _)
          · rintro ⟨rfl, hp⟩
            exact ⟨.inr ⟨rfl, hp⟩, .inl le_rfl⟩
        · have hd : ¬ c < d := by
            rw [UInt8.lt_iff_toNat_lt] at hc ⊢
            have := d.toNat_lt
            have h255 : (255 : UInt8).toNat = 255 := rfl
            omega
          simp [hc, hd]

lemma upperBound_concat (p : List UInt8) :
    upperBound (p ++ [c]) = if c < 255 then some (p ++ [c + 1]) else upperBound p := by
  induction p with
  | nil => rfl
  | cons d p ih =>
    rw [cons_append, upperBound, ih]
    by_cases hc : c < 255
    · rw [if_pos hc, if_pos hc]
      rfl
    · rw [if_neg hc, if_neg hc, upperBound]

variable {V : Type} {l : List (List UInt8 × V)}

lemma takeWhile_prefix_eq_filter (hl : l.Pairwise fun a b => a.1 < b.1) (hle : ∀ e ∈ l, p ≤ e.1) :
    (l.takeWhile fun e => p.isPrefixOf e.1) = l.filter fun e => p.isPrefixOf e.1 := by
  induction l with
  | nil => rfl
  | cons e l ih =>
    rw [pairwise_cons] at hl
    rw [forall_mem_cons] at hle
    by_cases hp : p.isPrefixOf e.1 = true
    · rw [takeWhile_cons, filter_cons, if_pos hp, if_pos hp, ih hl.2 hle.2]
    · rw [takeWhile_cons, filter_cons, if_neg hp, if_neg hp, eq_comm, filter_eq_nil_iff]
      intro e' he'
      rw [ isPrefixOf_iff_prefix] at hp ⊢
      intro hk'
      rw [← between_upperBound_iff, not_and] at hp
      exact hp hle.1 fun u hu => (hl.1 e' he').trans ((between_upperBound_iff.2 hk').2 u hu)

/-- A cursor that seeks `p` and goes on as long as keys begin with `p` sees all keys that
do. -/
lemma seek_eq_filter (hl : l.Pairwise fun a b => a.1 < b.1) :
    ((l.dropWhile fun e => e.1 < p).takeWhile fun e => p.isPrefixOf e.1) =
      l.filter fun e => p.isPrefixOf e.1 := by
  induction l with
  | nil => rfl
  | cons e l ih =>
    by_cases hlt : e.1 < p
    · have hp : ¬ p.isPrefixOf e.1 = true := by
        rw [ isPrefixOf_iff_prefix, ← between_upperBound_iff]
        exact fun h => absurd hlt (not_lt.2 h.1)
      rw [dropWhile_cons_of_pos (by simpa using hlt), filter_cons, if_neg hp]
      exact ih (pairwise_cons.1 hl).2
    · rw [dropWhile_cons_of_neg (by simpa using hlt)]
      refine takeWhile_prefix_eq_filter hl ?_
      rw [forall_mem_cons]
      have hle : p ≤ e.1 := not_lt.1 hlt
      exact ⟨hle, fun e' he' => hle.trans ((pairwise_cons.1 hl).1 e' he').le⟩

end Range

/-! ## Separators -/

section Separator

variable {α : Type} {sep : α} {a b x y : List α}

/-- `b` is `a`, a separator and more. -/
def Extends (sep : α) (a b : List α) : Prop := ∃ z, b = a ++ sep :: z

lemma not_extends_self : ¬ Extends sep a a := by
  rintro ⟨z, hz⟩
  have hlen := congrArg length hz
  simp at hlen

/-- Two parts in front of a separator, one of which begins as the other does. -/
lemma eq_or_extends (h : a ++ sep :: x <+: b ++ sep :: y) :
    a = b ∧ x <+: y ∨ Extends sep a b ∨ Extends sep b a := by
  induction a generalizing b with
  | nil =>
    cases b with
    | nil => exact .inl ⟨rfl, (cons_prefix_cons.1 h).2⟩
    | cons d b =>
      obtain ⟨rfl, -⟩ := cons_prefix_cons.1 h
      exact .inr (.inl ⟨b, rfl⟩)
  | cons c a ih =>
    cases b with
    | nil =>
      obtain ⟨rfl, -⟩ := cons_prefix_cons.1 h
      exact .inr (.inr ⟨a, rfl⟩)
    | cons d b =>
      obtain ⟨rfl, hab⟩ := cons_prefix_cons.1 h
      rcases ih hab with ⟨rfl, hxy⟩ | ⟨z, rfl⟩ | ⟨z, rfl⟩
      · exact .inl ⟨rfl, hxy⟩
      · exact .inr (.inl ⟨z, rfl⟩)
      · exact .inr (.inr ⟨z, rfl⟩)

/-- A part without the separator is read off what begins with it and the separator. -/
lemma prefix_of_separator (ha : sep ∉ a) (hb : sep ∉ b) (h : a ++ sep :: x <+: b ++ sep :: y) :
    a = b ∧ x <+: y := by
  rcases eq_or_extends h with h | ⟨z, rfl⟩ | ⟨z, rfl⟩
  · exact h
  · exact absurd (mem_append_right _ mem_cons_self) hb
  · exact absurd (mem_append_right _ mem_cons_self) ha

end Separator

end Blkit
