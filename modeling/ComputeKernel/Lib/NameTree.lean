import Mathlib.Data.List.Infix
import Mathlib.Logic.Function.Basic

/-!
# Trees given by their paths

A tree of nodes with labelled branches is the partial map from label lists to the nodes
found there.  A node is attached where there is none, below a node that can hold others.
Attaching at two places, neither of which lies below the other, can be done in either order.
-/

namespace ComputeKernel.Lib

variable {ι ν : Type*}

abbrev NameTree (ι ν : Type*) := List ι → Option ν

namespace NameTree

def CanAttach (holds : ν → Prop) (tree : NameTree ι ν) (path : List ι) : Prop :=
  path ≠ [] ∧ tree path = none ∧ ∃ parent, tree path.dropLast = some parent ∧ holds parent

variable [DecidableEq ι]

open Classical in
noncomputable def attach (holds : ν → Prop) (tree : NameTree ι ν) (path : List ι) (node : ν) :
    NameTree ι ν :=
  if CanAttach holds tree path then Function.update tree path (some node) else tree

variable {holds : ν → Prop} {tree : NameTree ι ν} {first second : List ι}

theorem attach_of_can (h : CanAttach holds tree first) (node : ν) :
    attach holds tree first node = Function.update tree first (some node) :=
  if_pos h

theorem attach_of_not_can (h : ¬ CanAttach holds tree first) (node : ν) :
    attach holds tree first node = tree :=
  if_neg h

theorem attach_of_ne (h : second ≠ first) (node : ν) :
    attach holds tree first node second = tree second := by
  by_cases hcan : CanAttach holds tree first
  · rw [attach_of_can hcan, Function.update_of_ne h]
  · rw [attach_of_not_can hcan]

theorem canAttach_attach_iff (h : ¬ first <+: second) (node : ν) :
    CanAttach holds (attach holds tree first node) second ↔ CanAttach holds tree second := by
  have hself : second ≠ first := fun hsame => h (hsame ▸ List.prefix_refl _)
  have hparent : second.dropLast ≠ first := fun hsame =>
    h (hsame ▸ List.dropLast_prefix second)
  unfold CanAttach
  rw [attach_of_ne hself, attach_of_ne hparent]

theorem attach_comm (h : ¬ first <+: second) (h' : ¬ second <+: first) (node node' : ν) :
    attach holds (attach holds tree first node) second node' =
      attach holds (attach holds tree second node') first node := by
  have hne : second ≠ first := fun hsame => h (hsame ▸ List.prefix_refl _)
  have hfirst : CanAttach holds (attach holds tree second node') first ↔
      CanAttach holds tree first := canAttach_attach_iff h' node'
  have hsecond : CanAttach holds (attach holds tree first node) second ↔
      CanAttach holds tree second := canAttach_attach_iff h node
  by_cases hcan : CanAttach holds tree first
  · by_cases hcan' : CanAttach holds tree second
    · rw [attach_of_can (hsecond.mpr hcan'), attach_of_can (hfirst.mpr hcan),
        attach_of_can hcan, attach_of_can hcan', Function.update_comm hne.symm]
    · rw [attach_of_not_can (fun hafter => hcan' (hsecond.mp hafter)),
        attach_of_not_can hcan']
  · rw [attach_of_not_can hcan, attach_of_not_can (fun hafter => hcan (hfirst.mp hafter))]

end NameTree

end ComputeKernel.Lib
