import ComputeKernel.Kernel.Orphans

/-!
# Waiting for one child

`wait4` reaps the first zombie on the caller's list and never looks at the child that the
caller names, so it reaps the right one exactly if that is the first.
-/

namespace ComputeKernel.Kernel.KernelState

open Lib Lib.Run Fs Memory Tasks Vfs

/-- A zombie child on the list of `pid` that the selector allows; a selector that is not
positive allows all. -/
structure Eligible (k : KernelState) (pid childPid child : Int) : Prop where
  listed : k.processTable.Lists pid child
  zombie : k.processTable.isZombie child = true
  selected : 0 < childPid → child = childPid

structure Removed (pid child : Int) (k k' : KernelState) : Prop where
  gone : k'.processTable.get child = none
  parent : ∀ proc, k.processTable.get pid = some proc →
    k'.processTable.get pid = some (proc.removeChild child)
  others : ∀ other, other ≠ child → other ≠ pid →
    k'.processTable.get other = k.processTable.get other
  vfs : k'.vfs = k.vfs
  vmm : k'.vmm = k.vmm
  brk : k'.brk = k.brk

/-- What a `wait4` of `pid` should do, with its result and the state after it. -/
structure ReapsRight (k : KernelState) (pid childPid : Int) (result : Int × KernelState) :
    Prop where
  reaped : 0 < result.1 → Eligible k pid childPid result.1 ∧ Removed pid result.1 k result.2
  refused : (∀ child, ¬ Eligible k pid childPid child) → result.1 ≤ 0 ∧ result.2 = k
  any : childPid = -1 → (∃ child, Eligible k pid childPid child) → 0 < result.1

structure FirstZombie (k : KernelState) (pid child : Int) : Prop where
  split : ∃ proc before after, k.processTable.get pid = some proc ∧
    proc.children = before ++ child :: after ∧
    ∀ other ∈ before, ¬ k.processTable.isZombie other = true
  zombie : k.processTable.isZombie child = true

theorem reapable_eq_some {k : KernelState} {pid child : Int} :
    k.reapable pid = some child ↔ FirstZombie k pid child := by
  unfold reapable
  rw [Option.bind_eq_some_iff]
  constructor
  · rintro ⟨proc, hproc, hfind⟩
    obtain ⟨hzombie, before, after, hsplit, hbefore⟩ := List.find?_eq_some_iff_append.mp hfind
    refine { split := ⟨proc, before, after, hproc, hsplit, ?_⟩, zombie := hzombie }
    exact fun other hother => by simpa using hbefore other hother
  · rintro ⟨⟨proc, before, after, hproc, hsplit, hbefore⟩, hzombie⟩
    refine ⟨proc, hproc, List.find?_eq_some_iff_append.mpr ⟨hzombie, before, after, hsplit, ?_⟩⟩
    exact fun other hother => by simpa using hbefore other hother

theorem FamilyInv.removed {k : KernelState} (h : FamilyInv k) {pid child : Int}
    (hlists : k.processTable.Lists pid child) :
    Removed pid child k { k with processTable := k.processTable.remove child } := by
  obtain ⟨proc, hproc, hppid⟩ := h.inv.family.hasParent hlists
  have hget := ProcessTable.get_remove hproc
  have hne : pid ≠ child := (h.child_ne pid child hlists).symm
  refine
    { gone := ?_
      parent := fun parent hparent => ?_
      others := fun other hchild hother => ?_
      vfs := rfl
      vmm := rfl
      brk := rfl }
  · change (k.processTable.remove child).get child = none
    rw [hget, if_pos rfl, Option.map_none]
  · change (k.processTable.remove child).get pid = _
    rw [hget, if_neg hne, hparent, Option.map_some, if_pos hppid.symm]
  · exact ProcessTable.get_remove_of_ne hproc hchild (hppid ▸ hother)

/-- In every state reached, `wait4` reaps what it was asked for exactly if it was asked for
no child in particular or for the first zombie on the list. -/
theorem reapsRight_iff (reqs : List Request) (pid childPid options : Int) :
    let k := run step boot reqs
    ReapsRight k pid childPid (k.sysWait4 pid childPid options) ↔
      (0 < childPid → ∀ child, FirstZombie k pid child → child = childPid) := by
  intro k
  have h : FamilyInv k := run_invariant familyInv_step familyInv_boot reqs
  cases hreap : k.reapable pid with
  | none =>
      obtain ⟨hresult, hsame⟩ := sysWait4_of_none hreap childPid options
      refine iff_of_true
        { reaped := fun hpos => ?_
          refused := fun _ => ⟨hresult, hsame⟩
          any := ?_ } fun _ child hfirst => ?_
      · omega
      · rintro - ⟨child, hchild⟩
        exact absurd hchild.zombie (not_zombie_of_reapable hreap hchild.listed)
      · cases hreap.symm.trans (reapable_eq_some.mpr hfirst)
  | some child =>
      obtain ⟨hlists, hzombie⟩ := lists_of_reapable hreap
      have hchild := h.two_le_child pid child hlists
      have hpos : 0 < child := by omega
      rw [sysWait4_of_reapable hreap]
      constructor
      · intro hright hselect first hfirst
        cases hreap.symm.trans (reapable_eq_some.mpr hfirst)
        exact (hright.reaped hpos).1.selected hselect
      · intro hfirst
        have heligible : Eligible k pid childPid child :=
          { listed := hlists
            zombie := hzombie
            selected := fun hselect => hfirst hselect child (reapable_eq_some.mp hreap) }
        exact
          { reaped := fun _ => ⟨heligible, h.removed hlists⟩
            refused := fun hnone => absurd heligible (hnone child)
            any := fun _ _ => hpos }

/-- Of two children the live one is waited for, and the other one is reaped. -/
theorem wait4_reaps_other :
    let k := run step boot [⟨2, .fork⟩, ⟨2, .fork⟩, ⟨3, .exit 0⟩]
    (k.sysWait4 2 4 0).1 = 3 ∧ ¬ ReapsRight k 2 4 (k.sysWait4 2 4 0) := by
  intro k
  have hresult : (k.sysWait4 2 4 0).1 = 3 := by decide +kernel
  refine ⟨hresult, fun hright => ?_⟩
  have hpos : 0 < (k.sysWait4 2 4 0).1 := by
    rw [hresult]
    decide
  have hselected := (hright.reaped hpos).1.selected (by decide)
  rw [hresult] at hselected
  cases hselected

end ComputeKernel.Kernel.KernelState
