import Mathlib.Data.List.Basic

/-!
# Slices with signed bounds

`slice xs a b` is the half-open slice `xs[a:b]` of a language where a negative
bound counts from the end and a bound outside the sequence is clamped to it.
-/

namespace ComputeKernel.Lib

variable {α : Type*}

/-- Position denoted by a signed bound in a sequence of the given length. -/
def clampIndex (length : Nat) (i : Int) : Nat :=
  if i < 0 then (i + length).toNat else min i.toNat length

def sliceFrom (xs : List α) (a : Int) : List α :=
  xs.drop (clampIndex xs.length a)

def sliceTo (xs : List α) (b : Int) : List α :=
  xs.take (clampIndex xs.length b)

def slice (xs : List α) (a b : Int) : List α :=
  sliceFrom (sliceTo xs b) (clampIndex xs.length a)

theorem clampIndex_of_nonneg (length : Nat) {i : Int} (h : 0 ≤ i) :
    clampIndex length i = min i.toNat length := by
  simp [clampIndex, Int.not_lt.mpr h]

theorem sliceFrom_of_nonneg (xs : List α) {a : Int} (h : 0 ≤ a) :
    sliceFrom xs a = xs.drop a.toNat := by
  rw [sliceFrom, clampIndex_of_nonneg _ h]
  rcases Nat.le_total a.toNat xs.length with hle | hle
  · rw [Nat.min_eq_left hle]
  · rw [Nat.min_eq_right hle, List.drop_length, List.drop_eq_nil_of_le hle]

theorem sliceTo_of_nonneg (xs : List α) {b : Int} (h : 0 ≤ b) :
    sliceTo xs b = xs.take b.toNat := by
  rw [sliceTo, clampIndex_of_nonneg _ h]
  rcases Nat.le_total b.toNat xs.length with hle | hle
  · rw [Nat.min_eq_left hle]
  · rw [Nat.min_eq_right hle, List.take_length, List.take_of_length_le hle]

theorem slice_of_nonneg (xs : List α) {a b : Int} (ha : 0 ≤ a) (hb : 0 ≤ b) :
    slice xs a b = (xs.take b.toNat).drop a.toNat := by
  rw [slice, sliceFrom_of_nonneg _ (Int.natCast_nonneg _), sliceTo_of_nonneg _ hb,
    Int.toNat_natCast, clampIndex_of_nonneg _ ha]
  rcases Nat.le_total a.toNat xs.length with hle | hle
  · rw [Nat.min_eq_left hle]
  · have hshort : (xs.take b.toNat).length ≤ xs.length := List.length_take_le' _ _
    rw [Nat.min_eq_right hle, List.drop_eq_nil_of_le hshort,
      List.drop_eq_nil_of_le (Nat.le_trans hshort hle)]

/-- A slice of `size` elements from a position on is what its bounds say, unless its end is
negative and denotes a place behind that position. -/
theorem slice_eq_window_iff (xs : List α) {position : Int} (h : 0 ≤ position) (size : Int) :
    slice xs position (position + size) = (xs.drop position.toNat).take size.toNat ↔
      ¬ (position + size < 0 ∧ 0 < xs.length + size) := by
  by_cases hsize : 0 ≤ size
  · rw [slice_of_nonneg xs h (by omega), List.drop_take]
    have hcount : (position + size).toNat - position.toNat = size.toNat := by omega
    rw [hcount]
    exact iff_of_true rfl (by omega)
  · have hzero : size.toNat = 0 := by omega
    have hlength : (slice xs position (position + size)).length =
        (sliceTo xs (position + size)).length - min position.toNat xs.length := by
      rw [slice, sliceFrom_of_nonneg _ (Int.natCast_nonneg _), clampIndex_of_nonneg _ h,
        List.length_drop, Int.toNat_natCast]
    rw [hzero, List.take_zero, ← List.length_eq_zero_iff, hlength, sliceTo, List.length_take,
      clampIndex]
    split <;> omega

theorem slice_eq_nil_iff (xs : List α) {position : Int} (hlow : 0 ≤ position)
    (hhigh : position ≤ xs.length) (size : Int) :
    slice xs position (position + size) = [] ↔
      ¬ (0 < size ∧ position < xs.length) ∧ ¬ (position + size < 0 ∧ 0 < xs.length + size) := by
  rw [← List.length_eq_zero_iff, slice, sliceFrom_of_nonneg _ (Int.natCast_nonneg _),
    clampIndex_of_nonneg _ hlow, List.length_drop, Int.toNat_natCast, sliceTo, List.length_take,
    clampIndex]
  split <;> omega

example : slice [0, 1, 2, 3, 4] 1 (-1) = [1, 2, 3] := by decide

end ComputeKernel.Lib
