import Mathlib.Order.Bounds.Basic
import Mathlib.Order.UpperLower.CompleteLattice
import Mathlib.Order.UpperLower.Principal

/-!
# Spans of a linear order

A span is given by what lies to the left of it and by what does not lie to the right of it,
two lower sets.  The relations between non-empty spans are comparisons of these lower sets.
-/

namespace Blkit

/-- What lies between two ends. -/
structure Span (α : Type) [LinearOrder α] where
  left : LowerSet α
  upTo : LowerSet α

namespace Span

variable {α : Type} [LinearOrder α] {A B : Span α} {z p : α}

def points (A : Span α) : Set α := {x | x ∉ A.left ∧ x ∈ A.upTo}

lemma nonempty_iff : A.points.Nonempty ↔ ¬ A.upTo ≤ A.left := by
  rw [← LowerSet.coe_subset_coe, Set.not_subset]
  exact exists_congr fun _ => and_comm

lemma not_mem_left (hA : A.points.Nonempty) : z ∉ A.left ↔ ∃ x ∈ A.points, x ≤ z := by
  constructor
  · intro hz
    by_cases hup : z ∈ A.upTo
    · exact ⟨z, ⟨hz, hup⟩, le_rfl⟩
    · obtain ⟨x, hx⟩ := hA
      exact ⟨x, hx, le_of_not_ge fun hle => hup (A.upTo.lower hle hx.2)⟩
  · rintro ⟨x, hx, hle⟩ hz
    exact hx.1 (A.left.lower hle hz)

lemma mem_upTo (hA : A.points.Nonempty) : z ∈ A.upTo ↔ ∃ x ∈ A.points, z ≤ x := by
  constructor
  · intro hz
    by_cases hleft : z ∈ A.left
    · obtain ⟨x, hx⟩ := hA
      exact ⟨x, hx, le_of_not_ge fun hle => hx.1 (A.left.lower hle hleft)⟩
    · exact ⟨z, ⟨hleft, hz⟩, le_rfl⟩
  · rintro ⟨x, hx, hle⟩
    exact A.upTo.lower hle hx.2

lemma left_le_iff (hA : A.points.Nonempty) (hB : B.points.Nonempty) :
    A.left ≤ B.left ↔ ∀ y ∈ B.points, ∃ x ∈ A.points, x ≤ y := by
  constructor
  · intro h y hy
    exact (not_mem_left hA).1 fun hz => hy.1 (h hz)
  · intro h z hz
    by_contra hzB
    obtain ⟨y, hy, hyz⟩ := (not_mem_left hB).1 hzB
    obtain ⟨x, hx, hxy⟩ := h y hy
    exact (not_mem_left hA).2 ⟨x, hx, hxy.trans hyz⟩ hz

lemma upTo_le_iff (hA : A.points.Nonempty) (hB : B.points.Nonempty) :
    A.upTo ≤ B.upTo ↔ ∀ x ∈ A.points, ∃ y ∈ B.points, x ≤ y := by
  constructor
  · intro h x hx
    exact (mem_upTo hB).1 (h hx.2)
  · intro h z hz
    obtain ⟨x, hx, hzx⟩ := (mem_upTo hA).1 hz
    obtain ⟨y, hy, hxy⟩ := h x hx
    exact (mem_upTo hB).2 ⟨y, hy, hzx.trans hxy⟩

lemma subset_iff (hA : A.points.Nonempty) (hB : B.points.Nonempty) :
    A.points ⊆ B.points ↔ B.left ≤ A.left ∧ A.upTo ≤ B.upTo := by
  constructor
  · intro h
    rw [left_le_iff hB hA, upTo_le_iff hA hB]
    exact ⟨fun x hx => ⟨x, h hx, le_rfl⟩, fun x hx => ⟨x, h hx, le_rfl⟩⟩
  · rintro ⟨hleft, hup⟩ x hx
    exact ⟨fun hz => hx.1 (hleft hz), hup hx.2⟩

lemma upTo_le_left_iff (hA : A.points.Nonempty) (hB : B.points.Nonempty) :
    A.upTo ≤ B.left ↔ ∀ x ∈ A.points, ∀ y ∈ B.points, x < y := by
  constructor
  · intro h x hx y hy
    by_contra hle
    exact hy.1 (B.left.lower (not_lt.1 hle) (h hx.2))
  · intro h z hz
    by_contra hzB
    obtain ⟨x, hx, hzx⟩ := (mem_upTo hA).1 hz
    obtain ⟨y, hy, hyz⟩ := (not_mem_left hB).1 hzB
    exact absurd (h x hx y hy) (hyz.trans hzx).not_gt

/-- A common point, if and only if neither span lies to the left of the other. -/
lemma inter_nonempty_iff (hA : A.points.Nonempty) (hB : B.points.Nonempty) :
    (A.points ∩ B.points).Nonempty ↔ ¬ A.upTo ≤ B.left ∧ ¬ B.upTo ≤ A.left := by
  constructor
  · rintro ⟨x, hxA, hxB⟩
    exact ⟨fun h => hxB.1 (h hxA.2), fun h => hxA.1 (h hxB.2)⟩
  · rintro ⟨hAB, hBA⟩
    -- the common part is what lies to the right of both left ends
    rw [nonempty_iff] at hA hB
    have h : ¬ A.upTo ⊓ B.upTo ≤ A.left ⊔ B.left := by
      rw [inf_le_iff, le_sup_iff, le_sup_iff]
      tauto
    rw [← LowerSet.coe_subset_coe, Set.not_subset] at h
    obtain ⟨x, ⟨hxA, hxB⟩, hx⟩ := h
    exact ⟨x, ⟨fun h => hx (.inl h), hxA⟩, fun h => hx (.inr h), hxB⟩

lemma isLeast_iff (hA : A.points.Nonempty) : IsLeast A.points p ↔ A.left = LowerSet.Iio p := by
  constructor
  · intro hp
    ext z
    rw [← not_iff_not, SetLike.mem_coe, not_mem_left hA, SetLike.mem_coe,
      LowerSet.mem_Iio_iff, not_lt]
    exact ⟨fun ⟨x, hx, hle⟩ => (hp.2 hx).trans hle, fun h => ⟨p, hp.1, h⟩⟩
  · intro h
    have hlow : p ∈ lowerBounds A.points := fun x hx => not_lt.1 fun hlt => hx.1 (h ▸ hlt)
    obtain ⟨x, hx, hle⟩ := (not_mem_left hA (z := p)).1 (by simp [h])
    exact ⟨le_antisymm hle (hlow hx) ▸ hx, hlow⟩

lemma isGreatest_iff (hA : A.points.Nonempty) : IsGreatest A.points p ↔
    A.upTo = LowerSet.Iic p := by
  constructor
  · intro hp
    ext z
    rw [SetLike.mem_coe, mem_upTo hA, SetLike.mem_coe, LowerSet.mem_Iic_iff]
    exact ⟨fun ⟨x, hx, hle⟩ => hle.trans (hp.2 hx), fun h => ⟨p, hp.1, h⟩⟩
  · intro h
    have hup : p ∈ upperBounds A.points := fun x hx => LowerSet.mem_Iic_iff.1 (h ▸ hx.2)
    obtain ⟨x, hx, hle⟩ := (mem_upTo hA (z := p)).1 (by simp [h])
    exact ⟨le_antisymm hle (hup hx) ▸ hx, hup⟩

end Span

end Blkit
