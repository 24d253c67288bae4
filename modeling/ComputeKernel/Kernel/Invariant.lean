import ComputeKernel.Kernel.Boot
import ComputeKernel.Kernel.Effect
import ComputeKernel.Tasks.ProcessTable

/-!
# Kernel invariant

What holds of the shared tables in every reachable state: process numbers and
children lists are in order, no descriptor is in two processes' tables, every
live process has an address space, and no recorded break is below the initial one.
-/

namespace ComputeKernel.Kernel.KernelState

open Lib Fs Memory Tasks Vfs

/-- Descriptors are handed out in increasing order, each to one process. -/
structure DescriptorsOk (k : KernelState) : Prop where
  three_le_nextFd : 3 ≤ k.vfs.nextFd
  holds_lt : ∀ pid fd, k.processTable.Holds pid fd → fd < k.vfs.nextFd
  holds_apart : ∀ pid other fd, k.processTable.Holds pid fd →
    k.processTable.Holds other fd → pid = other

structure Inv (k : KernelState) : Prop where
  pids : k.processTable.PidsOk
  family : k.processTable.FamilyOk
  descriptors : k.DescriptorsOk
  spaces : ∀ pid ∈ k.processTable.table, pid ∈ k.vmm.addressSpaces
  initialBrk_le : ∀ pid brk, k.brk.get? pid = some brk → initialBrk ≤ brk

/-! ## Booting -/

theorem bootVfs_nextFd : bootVfs.nextFd = 3 := by
  have hdirs : ∀ (dirs : List Str) (vfs : VFS Unit TmpFS),
      (dirs.foldl (fun vfs dir => (vfs.mkdir ('/' :: dir)).2) vfs).nextFd = vfs.nextFd := by
    intro dirs
    induction dirs with
    | nil => exact fun vfs => rfl
    | cons dir dirs ih => exact fun vfs => (ih _).trans (vfs.mkdir_nextFd _)
  unfold bootVfs
  rw [VFS.createFile_nextFd, VFS.createFile_nextFd, hdirs]
  rfl

theorem boot_holds (pid fd : Int) : ¬ boot.processTable.Holds pid fd := by
  have hinit : ¬ ProcessTable.init.Holds pid fd := by
    rintro ⟨proc, hproc, hfd⟩
    have hzero := ProcessTable.init_eq hproc
    rw [hzero.2] at hfd
    exact Dict.not_mem_empty fd hfd
  intro h
  rcases ProcessTable.holds_of_update h with h | ⟨-, proc, hproc, hfd⟩
  · exact hinit (ProcessTable.holds_of_spawn h)
  · exact hinit (ProcessTable.holds_of_spawn ⟨proc, hproc, hfd⟩)

theorem inv_boot : Inv boot where
  pids := (ProcessTable.PidsOk.init.spawn _ _ _ _ _).update Process.keepsFamily_start _
  family :=
    (ProcessTable.FamilyOk.init.spawn ProcessTable.PidsOk.init _ _ _ _ _).update
      Process.keepsFamily_start _
  descriptors :=
    { three_le_nextFd := Int.le_of_eq bootVfs_nextFd.symm
      holds_lt := fun pid fd h => absurd h (boot_holds pid fd)
      holds_apart := fun pid _ fd h => absurd h (boot_holds pid fd) }
  spaces := by
    intro pid hpid
    have hpid : pid ∈ (ProcessTable.init.spawn "init".toList 0 0 0 "/sbin/init".toList).2.table :=
      Dict.mem_modify.mp hpid
    rw [ProcessTable.mem_spawn, ProcessTable.mem_table_iff] at hpid
    change pid ∈ Dict.set (Dict.set _ 0 _) 2 _
    rw [Dict.mem_set, Dict.mem_set]
    rcases hpid with hpid | ⟨proc, hproc⟩
    · exact Or.inl hpid
    · exact Or.inr (Or.inl (ProcessTable.init_eq hproc).1)
  initialBrk_le := by
    intro pid brk hbrk
    cases hbrk

/-! ## One call -/

section Effect

variable {k k' : KernelState} {pid : Int} {call : Syscall} {result : Except FsError Int}

theorem pidsOk_effect (h : k.processTable.PidsOk) (he : Effect k pid call result k') :
    k'.processTable.PidsOk := by
  cases he with
  | nothing => exact h
  | read _ _ => exact h
  | write _ _ => exact h
  | openat ref fs inode _ => exact h.update (Process.keepsFamily_setFd _ _ _) pid
  | close _ _ => exact h.update (Process.keepsFamily_setFdt _) pid
  | mmap _ _ _ => exact h
  | munmap => exact h
  | brk _ => exact h
  | fork _ => exact (h.spawn _ _ _ _ _).update (Process.keepsFamily_setCwd _) _
  | execve => exact h.update (Process.keepsFamily_execute _) pid
  | exit => exact h.update (Process.keepsFamily_terminate _) pid
  | wait4 _ _ _ => exact h.remove _

theorem familyOk_effect (h : k.processTable.FamilyOk) (hpids : k.processTable.PidsOk)
    (he : Effect k pid call result k') : k'.processTable.FamilyOk := by
  cases he with
  | nothing => exact h
  | read _ _ => exact h
  | write _ _ => exact h
  | openat ref fs inode _ => exact h.update (Process.keepsFamily_setFd _ _ _) pid
  | close _ _ => exact h.update (Process.keepsFamily_setFdt _) pid
  | mmap _ _ _ => exact h
  | munmap => exact h
  | brk _ => exact h
  | fork _ => exact (h.spawn hpids _ _ _ _ _).update (Process.keepsFamily_setCwd _) _
  | execve => exact h.update (Process.keepsFamily_execute _) pid
  | exit => exact h.update (Process.keepsFamily_terminate _) pid
  | wait4 _ _ _ => exact h.remove _

theorem DescriptorsOk.of_holds (h : k.DescriptorsOk)
    (hholds : ∀ pid fd, k'.processTable.Holds pid fd → k.processTable.Holds pid fd)
    (hnext : k'.vfs.nextFd = k.vfs.nextFd) : k'.DescriptorsOk where
  three_le_nextFd := by
    rw [hnext]
    exact h.three_le_nextFd
  holds_lt := by
    intro pid fd hfd
    rw [hnext]
    exact h.holds_lt pid fd (hholds pid fd hfd)
  holds_apart := by
    intro pid other fd hpid hother
    exact h.holds_apart pid other fd (hholds pid fd hpid) (hholds other fd hother)

theorem DescriptorsOk.openat (h : k.DescriptorsOk) (path flags : Str) (ref : Unit) (fs : TmpFS)
    (inode : Inode) :
    DescriptorsOk
      { k with
        vfs := (k.vfs.setFs ref fs).addOpenFile path flags ref inode
        processTable := k.processTable.update pid fun proc =>
          proc.setFd k.vfs.nextFd path flags } := by
  have hcases : ∀ other fd, (k.processTable.update pid fun proc =>
      proc.setFd k.vfs.nextFd path flags).Holds other fd →
      k.processTable.Holds other fd ∨ (other = pid ∧ fd = k.vfs.nextFd) := by
    intro other fd hfd
    rcases ProcessTable.holds_of_update hfd with hfd | ⟨hother, proc, hproc, hfd⟩
    · exact Or.inl hfd
    · rcases Dict.mem_set.mp hfd with hnew | hold
      · exact Or.inr ⟨hother, hnew⟩
      · exact Or.inl ⟨proc, hproc, hold⟩
  constructor
  · have := h.three_le_nextFd
    change 3 ≤ k.vfs.nextFd + 1
    omega
  · intro other fd hfd
    change fd < k.vfs.nextFd + 1
    rcases hcases other fd hfd with hold | ⟨-, hnew⟩
    · have := h.holds_lt other fd hold
      omega
    · omega
  · intro first second fd hfirst hsecond
    rcases hcases first fd hfirst with hfirst | ⟨hfirst, hnew⟩
    · rcases hcases second fd hsecond with hsecond | ⟨-, hnew⟩
      · exact h.holds_apart first second fd hfirst hsecond
      · have := h.holds_lt first fd hfirst
        omega
    · rcases hcases second fd hsecond with hsecond | ⟨hsecond, -⟩
      · have := h.holds_lt second fd hsecond
        omega
      · exact hfirst.trans hsecond.symm

theorem descriptorsOk_effect (h : k.DescriptorsOk) (he : Effect k pid call result k') :
    k'.DescriptorsOk := by
  cases he with
  | nothing => exact h
  | read _ _ => exact h.of_holds (fun _ _ => id) (VFS.read_nextFd _ _ _)
  | write _ _ => exact h.of_holds (fun _ _ => id) (VFS.write_nextFd _ _ _)
  | openat ref fs inode _ => exact h.openat _ _ ref fs inode
  | @close fd proc hproc _ =>
      refine h.of_holds ?_ (VFS.close_nextFd _ _)
      intro other fd' hfd'
      rcases ProcessTable.holds_of_update hfd' with hfd' | ⟨rfl, old, hold, hfd'⟩
      · exact hfd'
      · exact ⟨proc, hproc, FileDescriptorTable.mem_of_mem_close hfd'⟩
  | mmap _ _ _ => exact h.of_holds (fun _ _ => id) rfl
  | munmap => exact h.of_holds (fun _ _ => id) rfl
  | brk _ => exact h.of_holds (fun _ _ => id) rfl
  | fork _ =>
      refine h.of_holds ?_ rfl
      intro other fd hfd
      exact ProcessTable.holds_of_spawn (ProcessTable.holds_of_update_keep hfd fun _ => rfl)
  | execve =>
      exact h.of_holds (fun _ _ hfd => ProcessTable.holds_of_update_keep hfd fun _ => rfl) rfl
  | exit => exact h.of_holds (fun _ _ hfd => ProcessTable.holds_of_update_keep hfd fun _ => rfl) rfl
  | wait4 _ _ _ => exact h.of_holds (fun _ _ => ProcessTable.holds_of_remove) rfl

theorem live_or_forked_effect (he : Effect k pid call result k') {other : Int}
    (hother : other ∈ k'.processTable.table) :
    other ∈ k.processTable.table ∨
      (call = .fork ∧ pid ∈ k.processTable.table ∧
        other = k.processTable.pidAlloc.alloc.1 ∧ k'.vmm = k.vmm.createAddressSpace other) := by
  cases he with
  | openat ref fs inode _ => exact Or.inl (Dict.mem_modify.mp hother)
  | close _ _ => exact Or.inl (Dict.mem_modify.mp hother)
  | execve => exact Or.inl (Dict.mem_modify.mp hother)
  | exit => exact Or.inl (Dict.mem_modify.mp hother)
  | fork hparent =>
      have hspawned := Dict.mem_modify.mp hother
      rw [ProcessTable.mem_spawn] at hspawned
      rcases hspawned with rfl | hold
      · exact Or.inr ⟨rfl, ProcessTable.mem_table_iff.mpr ⟨_, hparent⟩, rfl, rfl⟩
      · exact Or.inl hold
  | @wait4 _ _ _ child _ _ _ =>
      cases hchild : k.processTable.get child with
      | none =>
          rw [ProcessTable.remove_of_none hchild] at hother
          exact Or.inl hother
      | some proc => exact Or.inl ((ProcessTable.mem_remove hchild other).mp hother).2
  | _ => exact Or.inl hother

theorem mem_spaces_effect (he : Effect k pid call result k') {other : Int}
    (hother : other ∈ k.vmm.addressSpaces) : other ∈ k'.vmm.addressSpaces := by
  cases he with
  | mmap _ _ _ => exact (VirtualMemoryManager.mem_mapPages _ _ _ _ _ _ _).mpr hother
  | munmap => exact (VirtualMemoryManager.mem_unmapPages _ _ _ _).mpr hother
  | brk _ => exact (VirtualMemoryManager.mem_mapPages _ _ _ _ _ _ _).mpr hother
  | fork _ => exact Dict.mem_set.mpr (Or.inr hother)
  | _ => exact hother

theorem spaces_effect (h : ∀ pid ∈ k.processTable.table, pid ∈ k.vmm.addressSpaces)
    (he : Effect k pid call result k') :
    ∀ pid ∈ k'.processTable.table, pid ∈ k'.vmm.addressSpaces := by
  intro other hother
  rcases live_or_forked_effect he hother with hlive | ⟨-, -, -, hvmm⟩
  · exact mem_spaces_effect he (h other hlive)
  · rw [hvmm]
    exact Dict.mem_set.mpr (Or.inl rfl)

theorem initialBrk_le_currentBrk
    (h : ∀ pid brk, k.brk.get? pid = some brk → initialBrk ≤ brk) (pid : Int) :
    initialBrk ≤ k.currentBrk pid := by
  unfold currentBrk
  cases hbrk : k.brk.get? pid with
  | none => exact Int.le_refl initialBrk
  | some brk => exact h pid brk hbrk

theorem initialBrk_effect (h : ∀ pid brk, k.brk.get? pid = some brk → initialBrk ≤ brk)
    (he : Effect k pid call result k') :
    ∀ pid brk, k'.brk.get? pid = some brk → initialBrk ≤ brk := by
  intro other brk hbrk
  cases he with
  | @brk newBrk hgrow =>
      have hcurrent := initialBrk_le_currentBrk h pid
      exact Dict.forall_get?_set h (by omega) other brk hbrk
  | _ => exact h other brk hbrk

theorem inv_effect (h : Inv k) (he : Effect k pid call result k') : Inv k' where
  pids := pidsOk_effect h.pids he
  family := familyOk_effect h.family h.pids he
  descriptors := descriptorsOk_effect h.descriptors he
  spaces := spaces_effect h.spaces he
  initialBrk_le := initialBrk_effect h.initialBrk_le he

end Effect

/-! ## All calls -/

theorem effect_of_dispatch {k k' : KernelState} {pid nr : Int} {args : List Arg}
    {result : Except FsError Int} (h : Inv k)
    (hcall : k.dispatch pid nr args = some (result, k')) :
    ∃ call, decode nr args = some call ∧ Effect k pid call result k' := by
  obtain ⟨call, hdecode, hperform⟩ := Option.map_eq_some_iff.mp hcall
  refine ⟨call, hdecode, ?_⟩
  have hfd : 0 ≤ k.vfs.nextFd := by
    have := h.descriptors.three_le_nextFd
    omega
  have heffect := k.perform_effect pid hfd call
  rwa [hperform] at heffect

theorem reachable_inv {k : KernelState} (h : Reachable k) : Inv k := by
  induction h with
  | boot => exact inv_boot
  | dispatch _ hcall ih =>
      obtain ⟨call, -, heffect⟩ := effect_of_dispatch ih hcall
      exact inv_effect ih heffect

end ComputeKernel.Kernel.KernelState
