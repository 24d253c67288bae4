import Mathlib.Algebra.Order.Ring.Nat
import Mathlib.Data.List.Basic

/-!
# Allocation without reuse

Cells are handed out from the front of a pool, in the order in which they are asked for, and
never come back.  A demand that does not fit takes nothing.  The log of the demands that were
granted says who has which cell.
-/

namespace ComputeKernel.Lib.Bump

variable {ι : Type*}

def used (log : List (ι × Nat)) : Nat :=
  (log.map Prod.snd).sum

/-- Grant a demand if the pool has enough cells left. -/
def request (capacity : Nat) (log : List (ι × Nat)) (demand : ι × Nat) : List (ι × Nat) :=
  if used log + demand.2 ≤ capacity then log ++ [demand] else log

def cells (capacity : Nat) (log : List (ι × Nat)) : List (Option ι) :=
  (log.flatMap fun demand => List.replicate demand.2 (some demand.1)) ++
    List.replicate (capacity - used log) none

theorem used_concat (log : List (ι × Nat)) (demand : ι × Nat) :
    used (log ++ [demand]) = used log + demand.2 := by
  simp [used]

theorem used_request_le {capacity : Nat} {log : List (ι × Nat)} (h : used log ≤ capacity)
    (demand : ι × Nat) : used (request capacity log demand) ≤ capacity := by
  unfold request
  split
  · rename_i hfits
    rwa [used_concat]
  · exact h

theorem used_le_request (capacity : Nat) (log : List (ι × Nat)) (demand : ι × Nat) :
    used log ≤ used (request capacity log demand) := by
  unfold request
  split
  · rw [used_concat]
    exact Nat.le_add_right _ _
  · exact Nat.le_refl _

theorem used_le_foldl (capacity : Nat) (log demands : List (ι × Nat)) :
    used log ≤ used (demands.foldl (request capacity) log) := by
  induction demands generalizing log with
  | nil => exact Nat.le_refl _
  | cons demand demands ih => exact (used_le_request capacity log demand).trans (ih _)

theorem used_foldl_le {capacity : Nat} {log : List (ι × Nat)} (h : used log ≤ capacity)
    (demands : List (ι × Nat)) : used (demands.foldl (request capacity) log) ≤ capacity := by
  induction demands generalizing log with
  | nil => exact h
  | cons demand demands ih => exact ih (used_request_le h demand)

theorem cells_nil (capacity : Nat) :
    cells capacity ([] : List (ι × Nat)) = List.replicate capacity none := rfl

theorem count_none_cells [DecidableEq ι] (capacity : Nat) (log : List (ι × Nat)) :
    (cells capacity log).count none = capacity - used log := by
  have htaken : (log.flatMap fun demand => List.replicate demand.2 (some demand.1)).count none =
      0 := by
    rw [List.count_eq_zero]
    intro hmem
    obtain ⟨demand, -, hnone⟩ := List.mem_flatMap.mp hmem
    cases List.eq_of_mem_replicate hnone
  rw [cells, List.count_append, htaken, List.count_replicate_self, Nat.zero_add]

end ComputeKernel.Lib.Bump
