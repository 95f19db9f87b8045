import Mathlib.Data.Int.Notation
import Mathlib.Data.List.Basic
import Mathlib.Data.Nat.Notation

/-!
# Numbers in decimal, padded with zeros

`%0wd`: a number in decimal with zeros in front up to a given width, and a minus sign
before the zeros of a negative number.  A padded number can be read back, and a text that
ends in a separator and a part without the separator falls apart there in one way.
-/

namespace Blkit

open List

/-- A natural number with zeros in front up to a width. -/
def padded (w n : ℕ) : List Char :=
  List.replicate (w - (Nat.toDigits 10 n).length) '0' ++ Nat.toDigits 10 n

/-- An integer with zeros in front up to a width; the sign counts. -/
def paddedInt (w : ℕ) : ℤ → List Char
  | .ofNat n => padded w n
  | .negSucc n => '-' :: padded (w - 1) (n + 1)

lemma ofDigitChars_zeros (k : ℕ) : Nat.ofDigitChars 10 (replicate k '0') 0 = 0 := by
  induction k with
  | zero => rfl
  | succ k ih => exact ih

lemma padded_injective (w : ℕ) : Function.Injective (padded w) :=
  Function.LeftInverse.injective (g := fun cs => Nat.ofDigitChars 10 cs 0) fun n => by
    show Nat.ofDigitChars 10 (padded w n) 0 = n
    rw [padded, Nat.ofDigitChars_append, ofDigitChars_zeros, Nat.ofDigitChars_ten_toDigits]

lemma isDigit_of_mem_padded {w n : ℕ} {c : Char} (h : c ∈ padded w n) : c.isDigit := by
  rcases mem_append.1 h with h | h
  · rw [eq_of_mem_replicate h]
    rfl
  · exact Nat.isDigit_of_mem_toDigits (by decide) (by decide) h

lemma paddedInt_injective (w : ℕ) : Function.Injective (paddedInt w) := by
  have hsign {v n : ℕ} {l : List Char} : padded v n ≠ '-' :: l := fun h =>
    absurd (isDigit_of_mem_padded (h ▸ mem_cons_self)) (by decide)
  rintro (n | n) (m | m) h
  · exact congrArg Int.ofNat (padded_injective w h)
  · exact absurd h hsign
  · exact absurd h.symm hsign
  · exact congrArg Int.negSucc (Nat.succ.inj (padded_injective (w - 1) (cons.inj h).2))

/-- No sign and no digit is equal to `c`. -/
lemma not_mem_paddedInt {c : Char} (hc : c.isDigit = false) (hsign : c ≠ '-') (w : ℕ) (z : ℤ) :
    c ∉ paddedInt w z := by
  have hpadded (v n : ℕ) : c ∉ padded v n := fun h => by
    rw [isDigit_of_mem_padded h] at hc
    cases hc
  cases z with
  | ofNat n => exact hpadded w n
  | negSucc n =>
    rw [paddedInt, mem_cons, not_or]
    exact ⟨hsign, hpadded _ _⟩

/-- What comes after the last separator is decided by the text. -/
lemma append_sep_inj {α : Type} {sep : α} {a a' b b' : List α} (hb : sep ∉ b) (hb' : sep ∉ b')
    (h : a ++ sep :: b = a' ++ sep :: b') : a = a' ∧ b = b' := by
  have hlt {x y u v : List α} (hv : sep ∉ v) (h : x ++ sep :: u = y ++ sep :: v) :
      v.length ≤ u.length := by
    by_contra hlen
    have hv' : v <:+ x ++ sep :: u := ⟨y ++ [sep], by simp [h]⟩
    have hsuffix : sep :: u <:+ v := by
      refine suffix_of_suffix_length_le (suffix_append x (sep :: u)) hv' ?_
      simp only [length_cons]
      omega
    exact hv (hsuffix.subset mem_cons_self)
  have hlen : (sep :: b).length = (sep :: b').length := by
    have h₁ := hlt hb' h
    have h₂ := hlt hb h.symm
    simp only [length_cons]
    omega
  obtain ⟨ha, hsep⟩ := append_inj' h hlen
  exact ⟨ha, (cons.inj hsep).2⟩

end Blkit
