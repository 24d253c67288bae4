import ComputeKernel.Kernel.Descriptors
import ComputeKernel.Kernel.Family

/-!
# What a reaped process leaves behind

Neither `exit` nor `wait4` gives back anything but the process number: open files, the
address space, page frames and the recorded break outlive the process.
-/

namespace ComputeKernel.Kernel.KernelState

open Lib Lib.Run Fs Memory Tasks Vfs

/-- Of the resources that `child` had in `k`, none is left in `k'`. -/
structure NoResidue (child : Int) (k k' : KernelState) : Prop where
  files : ∀ fd, k.processTable.Holds child fd → fd ∉ k'.vfs.openFiles
  space : child ∉ k'.vmm.addressSpaces
  frames : k'.vmm.pmm.framesOf child = []

structure SameResources (k k' : KernelState) : Prop where
  vfs : k'.vfs = k.vfs
  vmm : k'.vmm = k.vmm
  brk : k'.brk = k.brk

theorem sameResources_exit (k : KernelState) (pid code : Int) :
    SameResources k (k.step ⟨pid, .exit code⟩) := by
  change SameResources k (k.sysExit pid code).2
  unfold sysExit
  cases k.processTable.get pid with
  | none => exact ⟨rfl, rfl, rfl⟩
  | some proc => exact ⟨rfl, rfl, rfl⟩

theorem sameResources_wait4 (k : KernelState) (pid childPid options : Int) :
    SameResources k (k.step ⟨pid, .wait4 childPid options⟩) := by
  change SameResources k (k.sysWait4 pid childPid options).2
  cases hreap : k.reapable pid with
  | none =>
      rw [(sysWait4_of_none hreap childPid options).2]
      exact ⟨rfl, rfl, rfl⟩
  | some child =>
      rw [sysWait4_of_reapable hreap]
      exact ⟨rfl, rfl, rfl⟩

theorem TablesAgree.mem_openFiles {k : KernelState} (h : TablesAgree k) {pid fd : Int}
    (hheld : k.processTable.Holds pid fd) : fd ∈ k.vfs.openFiles := by
  obtain ⟨fdt, htable, hmem⟩ := hheld.hasTable
  obtain ⟨⟨path, flags⟩, hentry⟩ := Dict.mem_iff_exists.mp hmem
  obtain ⟨file, hfile, -⟩ := h pid fdt fd path flags htable hentry
  exact Dict.mem_of_get? hfile

/-- In every run, `exit` and `wait4` leave all resources as they are: the files that a
reaped child had open are still open, and its address space and frames are still there. -/
theorem reaping_keeps_resources (reqs : List Request) :
    let k := run step boot reqs
    (∀ pid code, SameResources k (k.step ⟨pid, .exit code⟩)) ∧
    (∀ pid childPid options, SameResources k (k.step ⟨pid, .wait4 childPid options⟩)) ∧
    ∀ pid child childPid options,
      k.answer ⟨pid, .wait4 childPid options⟩ = .ok child → 0 < child →
      let k' := k.step ⟨pid, .wait4 childPid options⟩
      Reaped pid child k k' ∧ SameResources k k' ∧
      (∀ fd, k.processTable.Holds child fd → fd ∈ k'.vfs.openFiles) ∧
      child ∈ k'.vmm.addressSpaces ∧
      k'.vmm.pmm.framesOf child = k.vmm.pmm.framesOf child := by
  intro k
  have h : DescInv k := descInv_run reqs
  refine ⟨sameResources_exit k, sameResources_wait4 k, ?_⟩
  intro pid child childPid options hanswer hpos k'
  have hsame : SameResources k k' := sameResources_wait4 k pid childPid options
  have hlists := (lists_of_reapable (reapable_of_answer hanswer hpos)).1
  refine ⟨reaped_step h.inv hanswer hpos, hsame, ?_, ?_, ?_⟩
  · intro fd hheld
    rw [hsame.vfs]
    exact h.agree.mem_openFiles hheld
  · rw [hsame.vmm]
    exact h.inv.spaces child (h.inv.live_of_lists hlists)
  · rw [hsame.vmm]

/-- Process 3 opens a file, maps a page, exits and is reaped. -/
theorem residue_of_reaped :
    let k := run step boot
      [⟨2, .fork⟩, ⟨3, .openat (-100) "/etc/hostname".toList "r".toList⟩,
        ⟨3, .mmap 0 4096 "rw-".toList "[mmap]".toList⟩, ⟨3, .exit 0⟩]
    let k' := k.step ⟨2, .wait4 (-1) 0⟩
    k.answer ⟨2, .wait4 (-1) 0⟩ = .ok 3 ∧ ¬ NoResidue 3 k k' ∧
    k.processTable.Holds 3 3 ∧ 3 ∈ k'.vfs.openFiles ∧ 3 ∈ k'.vmm.addressSpaces ∧
    k'.vmm.pmm.framesOf 3 = [0] := by
  intro k k'
  have hspace : 3 ∈ k'.vmm.addressSpaces := by decide +kernel
  refine ⟨by decide +kernel, fun h => h.space hspace, ?_, by decide +kernel, hspace,
    by decide +kernel⟩
  have hheld : ((k.processTable.get 3).map fun proc => proc.fdt.get 3) =
      some (some ("/etc/hostname".toList, "r".toList)) := by decide +kernel
  obtain ⟨proc, hproc, hentry⟩ := Option.map_eq_some_iff.mp hheld
  exact ⟨proc, hproc, Dict.mem_of_get? hentry⟩

end ComputeKernel.Kernel.KernelState
