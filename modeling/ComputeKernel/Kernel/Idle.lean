import ComputeKernel.Kernel.Residue
import ComputeKernel.Kernel.Unmapping
import ComputeKernel.Vfs.Unchanged

/-!
# Calls that change nothing

For each call the exact condition under which it leaves the whole state as it is, whoever
makes it.
-/

namespace ComputeKernel.Memory

open Lib

namespace VirtualMemoryManager

variable (vmm : VirtualMemoryManager) (pid vaddr : Int)

theorem mapPages_eq_self_iff (size : Int) (flags name : Str) :
    (vmm.mapPages pid vaddr size flags name).2 = vmm ↔ ¬ vmm.Fits pid size := by
  by_cases hfits : vmm.Fits pid size
  · refine iff_of_false (fun hsame => ?_) (not_not.mpr hfits)
    obtain ⟨space, pmm, -, hmap, hused, -⟩ := mapPages_of_fits hfits vaddr flags name
    have hpos := pagesNeeded_pos hfits.2.1
    rw [hmap] at hsame
    rw [← hsame] at hused
    dsimp only at hused
    omega
  · rw [mapPages_of_not_fits hfits]
    exact iff_of_true rfl hfits

theorem unmapPages_eq_self_iff :
    (vmm.unmapPages pid vaddr).2 = vmm ↔ ∀ space, vmm.addressSpaces.get? pid = some space →
      ∀ area ∈ space.areas, area.start ≠ vaddr := by
  constructor
  · intro hsame space hspace area harea
    have hunmapped := get?_unmapPages_self hspace vaddr
    rw [hsame, hspace, Option.some.injEq] at hunmapped
    rw [hunmapped] at harea
    exact (AddressSpace.mem_unmap.mp harea).2
  · intro hnone
    apply unmapPages_of_false
    unfold unmapPages
    cases hspace : vmm.addressSpaces.get? pid with
    | none => rfl
    | some space =>
        rw [← Bool.not_eq_true]
        intro hfound
        obtain ⟨area, harea, hstart⟩ := AddressSpace.unmap_eq_true.mp hfound
        exact hnone space hspace area harea hstart

end VirtualMemoryManager

end ComputeKernel.Memory

namespace ComputeKernel.Kernel

open Lib Lib.Run Fs Memory Tasks Vfs

namespace KernelState

/-- The call has nothing to do, whoever makes it: a descriptor that is not held or has no bytes
to read, no data to write, a path that names nothing, too few frames, no VMA at the address, a
break that is not raised, the program that runs already, the exit code that is there already,
no zombie child. -/
def Idle (k : KernelState) (pid : Int) : Syscall → Prop
  | .read fd size => k.processTable.Holds pid fd → ¬ k.vfs.Readable fd size
  | .write fd data => k.processTable.Holds pid fd → data = [] ∨ ¬ k.vfs.Regular fd
  | .openat _ path _ => pid ∈ k.processTable.table → path = [] ∨ k.vfs.stat path = none
  | .close fd => ¬ k.processTable.Holds pid fd
  | .mmap _ length _ _ => pid ∈ k.processTable.table → ¬ k.vmm.Fits pid length
  | .munmap addr _ => addr = 0 ∨ ∀ space, k.vmm.addressSpaces.get? pid = some space →
      ∀ area ∈ space.areas, area.start ≠ addr
  | .brk newBrk => newBrk ≤ k.currentBrk pid
  | .fork => pid ∉ k.processTable.table
  | .execve path _ _ => ∀ proc, k.processTable.get pid = some proc →
      proc.cmdline = path ∧ (path = [] ∨ proc.name = (path.splitOn '/').getLastD [])
  | .exit code => ∀ proc, k.processTable.get pid = some proc →
      proc.state = .zombie ∧ proc.exitCode = code
  | .wait4 _ _ => ∀ child, k.processTable.Lists pid child →
      ¬ k.processTable.isZombie child = true
  | .nanosleep _ _ => True
  | .getpid => True
  | .kill _ _ => True
  | .unknown => True

/-! ## What one call leaves unchanged -/

structure FilesInv (k : KernelState) : Prop where
  desc : DescInv k
  placed : VFS.Placed k.vfs

section Handlers

variable {k : KernelState} {pid : Int}

theorem vfs_eq_self_iff {vfs : VFS Unit TmpFS} : { k with vfs := vfs } = k ↔ vfs = k.vfs :=
  ⟨fun hsame => congrArg KernelState.vfs hsame, by rintro rfl; rfl⟩

theorem vmm_eq_self_iff {vmm : VirtualMemoryManager} : { k with vmm := vmm } = k ↔ vmm = k.vmm :=
  ⟨fun hsame => congrArg KernelState.vmm hsame, by rintro rfl; rfl⟩

theorem processTable_eq_self_iff {pt : ProcessTable} :
    { k with processTable := pt } = k ↔ pt = k.processTable :=
  ⟨fun hsame => congrArg KernelState.processTable hsame, by rintro rfl; rfl⟩

theorem not_holds_of_get_none (hproc : k.processTable.get pid = none) (fd : Int) :
    ¬ k.processTable.Holds pid fd := by
  rintro ⟨proc, hget, -⟩
  cases hproc.symm.trans hget

theorem FilesInv.file_of_get (h : FilesInv k) {proc : Process}
    (hproc : k.processTable.get pid = some proc) {fd : Int} {entry : Str × Str}
    (hentry : proc.fdt.get fd = some entry) :
    k.processTable.Holds pid fd ∧ ∃ file, k.vfs.openFiles.get? fd = some file := by
  have hheld : k.processTable.Holds pid fd := ⟨proc, hproc, Dict.mem_of_get? hentry⟩
  exact ⟨hheld, Dict.mem_iff_exists.mp (h.desc.agree.mem_openFiles hheld)⟩

theorem not_holds_of_fdt_none {proc : Process} (hproc : k.processTable.get pid = some proc)
    {fd : Int} (hentry : proc.fdt.get fd = none) : ¬ k.processTable.Holds pid fd := by
  rintro ⟨proc', hproc', hmem⟩
  cases hproc.symm.trans hproc'
  exact Dict.get?_eq_none.mp hentry hmem

theorem sysRead_eq_self_iff (h : FilesInv k) (fd size : Int) :
    (k.sysRead pid fd size).2 = k ↔ k.Idle pid (.read fd size) := by
  unfold sysRead
  cases hproc : k.processTable.get pid with
  | none => exact iff_of_true rfl fun hheld => absurd hheld (not_holds_of_get_none hproc fd)
  | some proc =>
      dsimp only
      cases hentry : proc.fdt.get fd with
      | none => exact iff_of_true rfl fun hheld => absurd hheld (not_holds_of_fdt_none hproc hentry)
      | some entry =>
          obtain ⟨hheld, file, hfile⟩ := h.file_of_get hproc hentry
          dsimp only
          rw [vfs_eq_self_iff, h.placed.read_eq_self_iff hfile]
          exact ⟨fun hnone _ => hnone, fun hidle => hidle hheld⟩

theorem sysWrite_eq_self_iff (h : FilesInv k) (fd : Int) (data : Bytes) :
    (k.sysWrite pid fd data).2 = k ↔ k.Idle pid (.write fd data) := by
  unfold sysWrite
  cases hproc : k.processTable.get pid with
  | none => exact iff_of_true rfl fun hheld => absurd hheld (not_holds_of_get_none hproc fd)
  | some proc =>
      dsimp only
      split
      · rename_i hlog
        refine iff_of_true rfl fun hheld => ?_
        have := h.desc.three_le pid fd hheld
        omega
      · cases hentry : proc.fdt.get fd with
        | none =>
            exact iff_of_true rfl fun hheld => absurd hheld (not_holds_of_fdt_none hproc hentry)
        | some entry =>
            obtain ⟨hheld, file, hfile⟩ := h.file_of_get hproc hentry
            dsimp only
            rw [vfs_eq_self_iff, h.placed.write_eq_self_iff hfile]
            exact ⟨fun hnone _ => hnone, fun hidle => hidle hheld⟩

theorem sysOpenat_eq_self_iff (h : FilesInv k) (dirfd : Int) (path flags : Str) :
    (k.sysOpenat pid dirfd path flags).2 = k ↔ k.Idle pid (.openat dirfd path flags) := by
  have hidle : k.Idle pid (.openat dirfd path flags) ↔ ¬ k.Opens pid path := not_opens_iff.symm
  have hthree := h.desc.inv.descriptors.three_le_nextFd
  rw [hidle]
  rcases k.sysOpenat_cases pid (by omega) dirfd path flags with
    ⟨hnone, r, -, hopen⟩ | ⟨hopens, ref, fs, inode, hopen⟩
  · rw [hopen]
    exact iff_of_true rfl hnone
  · rw [hopen]
    refine iff_of_false (fun hsame => ?_) (not_not.mpr hopens)
    -- a descriptor was handed out
    have hnext := congrArg (fun k => k.vfs.nextFd) hsame
    change k.vfs.nextFd + 1 = k.vfs.nextFd at hnext
    omega

theorem sysClose_eq_self_iff (h : FilesInv k) (fd : Int) :
    (k.sysClose pid fd).2 = k ↔ k.Idle pid (.close fd) := by
  unfold sysClose
  cases hproc : k.processTable.get pid with
  | none => exact iff_of_true rfl (not_holds_of_get_none hproc fd)
  | some proc =>
      dsimp only
      by_cases hfd : fd ∈ proc.fdt.table
      · have hheld : k.processTable.Holds pid fd := ⟨proc, hproc, hfd⟩
        rw [FileDescriptorTable.close_of_mem hfd]
        refine iff_of_false (fun hsame => ?_) (not_not.mpr hheld)
        have hvfs := congrArg KernelState.vfs hsame
        exact (k.vfs.close_eq_self_iff fd).mp hvfs (h.desc.agree.mem_openFiles hheld)
      · rw [FileDescriptorTable.close_of_not_mem hfd]
        exact iff_of_true rfl (not_holds_of_fdt_none hproc (Dict.get?_eq_none.mpr hfd))

theorem sysMmap_eq_self_iff (addr length : Int) (flags name : Str) :
    (k.sysMmap pid addr length flags name).2 = k ↔ k.Idle pid (.mmap addr length flags name) := by
  change _ ↔ (pid ∈ k.processTable.table → ¬ k.vmm.Fits pid length)
  unfold sysMmap
  split
  · rename_i hlength
    exact iff_of_true rfl fun _ hfits => Int.not_lt.mpr hlength hfits.2.1
  · cases hproc : k.processTable.get pid with
    | none => exact iff_of_true rfl fun hlive => absurd hlive (Dict.get?_eq_none.mp hproc)
    | some proc =>
        have hlive : pid ∈ k.processTable.table := Dict.mem_of_get? hproc
        rw [forall_prop_of_true hlive,
          ← k.vmm.mapPages_eq_self_iff pid (mmapAddr addr) length flags name]
        dsimp only
        cases hmap : k.vmm.mapPages pid (mmapAddr addr) length flags name with
        | mk ok vmm =>
            cases ok with
            | false => exact vmm_eq_self_iff
            | true => exact vmm_eq_self_iff

theorem sysMunmap_eq_self_iff (addr length : Int) :
    (k.sysMunmap pid addr length).2 = k ↔ k.Idle pid (.munmap addr length) := by
  unfold sysMunmap
  split
  · rename_i haddr
    exact iff_of_true rfl (Or.inl haddr)
  · rename_i haddr
    dsimp only
    rw [vmm_eq_self_iff, VirtualMemoryManager.unmapPages_eq_self_iff]
    exact (or_iff_right haddr).symm

theorem sysBrk_eq_self_iff (h : Inv k) (newBrk : Int) :
    (k.sysBrk pid newBrk).2 = k ↔ k.Idle pid (.brk newBrk) := by
  have hcurrent := initialBrk_le_currentBrk h.initialBrk_le pid
  have hinitial : 0 < initialBrk := by decide
  change _ ↔ newBrk ≤ k.currentBrk pid
  unfold sysBrk
  dsimp only
  split
  · exact iff_of_true rfl (by omega)
  · refine iff_of_false (fun hsame => ?_) (by omega)
    have hbrk := congrArg (fun k => k.currentBrk pid) hsame
    change ((k.brk.set pid newBrk).get? pid).getD initialBrk = k.currentBrk pid at hbrk
    rw [Dict.get?_set_self, Option.getD_some] at hbrk
    omega

theorem sysFork_eq_self_iff (h : Inv k) : (k.sysFork pid).2 = k ↔ k.Idle pid .fork := by
  cases hparent : k.processTable.get pid with
  | none =>
      rw [sysFork_of_none hparent]
      exact iff_of_true rfl (Dict.get?_eq_none.mp hparent)
  | some parent =>
      rw [sysFork_of_get hparent]
      refine iff_of_false (fun hsame => ?_) (not_not.mpr (Dict.mem_of_get? hparent))
      -- the child has a number that was free
      have hchild : k.processTable.pidAlloc.alloc.1 ∈ k.processTable.table := by
        rw [← congrArg (fun k => k.processTable.table) hsame]
        apply Dict.mem_modify.mpr
        rw [ProcessTable.mem_spawn]
        exact Or.inl rfl
      exact h.pids.alloc_fresh hchild

theorem sysExecve_eq_self_iff (path : Str) (argv envp : Option (List Str)) :
    (k.sysExecve pid path argv envp).2 = k ↔ k.Idle pid (.execve path argv envp) := by
  unfold sysExecve Idle
  cases hproc : k.processTable.get pid with
  | none =>
      refine iff_of_true rfl fun proc hlive => ?_
      cases hlive
  | some proc =>
      dsimp only
      rw [processTable_eq_self_iff, ProcessTable.update_eq_self_iff hproc]
      constructor
      · rintro hsame other ⟨⟩
        refine ⟨(congrArg Process.cmdline hsame).symm, ?_⟩
        have hname := congrArg Process.name hsame
        by_cases hpath : path = []
        · exact Or.inl hpath
        · right
          simpa [Process.execute, hpath] using hname.symm
      · intro hidle
        obtain ⟨hcmdline, hname⟩ := hidle proc rfl
        have hkept : (if path = [] then proc.name else (path.splitOn '/').getLastD []) =
            proc.name := by
          rcases hname with hpath | hname
          · exact if_pos hpath
          · rw [← hname, ite_self]
        rw [Process.execute, hkept, ← hcmdline]

theorem sysExit_eq_self_iff (code : Int) :
    (k.sysExit pid code).2 = k ↔ k.Idle pid (.exit code) := by
  unfold sysExit Idle
  cases hproc : k.processTable.get pid with
  | none =>
      refine iff_of_true rfl fun proc hlive => ?_
      cases hlive
  | some proc =>
      dsimp only
      rw [processTable_eq_self_iff, ProcessTable.update_eq_self_iff hproc]
      constructor
      · rintro hsame other ⟨⟩
        exact ⟨(congrArg Process.state hsame).symm, (congrArg Process.exitCode hsame).symm⟩
      · intro hidle
        obtain ⟨hstate, hcode⟩ := hidle proc rfl
        rw [Process.terminate, ← hstate, ← hcode]

theorem sysWait4_eq_self_iff (h : Inv k) (childPid options : Int) :
    (k.sysWait4 pid childPid options).2 = k ↔ k.Idle pid (.wait4 childPid options) := by
  change _ ↔ ∀ child, k.processTable.Lists pid child → ¬ k.processTable.isZombie child = true
  cases hreap : k.reapable pid with
  | none =>
      rw [(sysWait4_of_none hreap childPid options).2]
      exact iff_of_true rfl fun child => not_zombie_of_reapable hreap
  | some child =>
      obtain ⟨hlists, hzombie⟩ := lists_of_reapable hreap
      have hlive := h.live_of_lists hlists
      obtain ⟨proc, hproc⟩ := ProcessTable.mem_table_iff.mp hlive
      rw [sysWait4_of_reapable hreap]
      refine iff_of_false (fun hsame => ?_) fun hidle => hidle child hlists hzombie
      rw [← congrArg KernelState.processTable hsame, ProcessTable.mem_remove hproc] at hlive
      exact hlive.1 rfl

end Handlers

theorem step_eq_self_iff {k : KernelState} (h : FilesInv k) (pid : Int) (call : Syscall) :
    k.step ⟨pid, call⟩ = k ↔ k.Idle pid call := by
  cases call with
  | read fd size => exact sysRead_eq_self_iff h fd size
  | write fd data => exact sysWrite_eq_self_iff h fd data
  | openat dirfd path flags => exact sysOpenat_eq_self_iff h dirfd path flags
  | close fd => exact sysClose_eq_self_iff h fd
  | mmap addr length flags name => exact sysMmap_eq_self_iff addr length flags name
  | munmap addr length => exact sysMunmap_eq_self_iff addr length
  | brk newBrk => exact sysBrk_eq_self_iff h.desc.inv newBrk
  | nanosleep seconds nanos => exact iff_of_true rfl trivial
  | getpid => exact iff_of_true rfl trivial
  | fork => exact sysFork_eq_self_iff h.desc.inv
  | execve path argv envp => exact sysExecve_eq_self_iff path argv envp
  | exit code => exact sysExit_eq_self_iff code
  | wait4 childPid options => exact sysWait4_eq_self_iff h.desc.inv childPid options
  | kill targetPid signum => exact iff_of_true rfl trivial
  | unknown => exact iff_of_true rfl trivial

/-! ## Open files over runs -/

theorem placed_bootVfs : VFS.Placed bootVfs := by
  have hdirs : ∀ (dirs : List Str) (vfs : VFS Unit TmpFS), vfs.Placed →
      VFS.Placed (dirs.foldl (fun vfs dir => (vfs.mkdir ('/' :: dir)).2) vfs) := by
    intro dirs
    induction dirs with
    | nil => exact fun vfs h => h
    | cons dir dirs ih => exact fun vfs h => ih _ (h.step (.mkdir ('/' :: dir)))
  have hroot := hdirs standardDirs _ (VFS.placed_rootVfs "tmpfs".toList)
  exact (hroot.step (.createFile _ _)).step (.createFile _ _)

theorem sysOpenat_vfs (k : KernelState) (pid dirfd : Int) (path flags : Str) :
    (k.sysOpenat pid dirfd path flags).2.vfs = k.vfs ∨
      (k.sysOpenat pid dirfd path flags).2.vfs = (k.vfs.open_ path flags).2 := by
  unfold sysOpenat
  cases k.processTable.get pid with
  | none => exact Or.inl rfl
  | some proc =>
      dsimp only
      split
      · exact Or.inl rfl
      · right
        cases k.vfs.open_ path flags with
        | mk result vfs =>
            cases result with
            | error error => rfl
            | ok fd =>
                dsimp only
                split
                · rfl
                · rfl

theorem placed_step (k : KernelState) (req : Request) (h : FilesInv k) :
    VFS.Placed (k.step req).vfs := by
  obtain ⟨pid, call⟩ := req
  by_cases hopen : ∃ dirfd path flags, call = .openat dirfd path flags
  · obtain ⟨dirfd, path, flags, rfl⟩ := hopen
    change VFS.Placed (k.sysOpenat pid dirfd path flags).2.vfs
    rcases k.sysOpenat_vfs pid dirfd path flags with hsame | hopened
    · rw [hsame]
      exact h.placed
    · rw [hopened]
      exact h.placed.open_ path flags
  · have he := effect_step h.desc.inv ⟨pid, call⟩
    generalize k.answer ⟨pid, call⟩ = result at he
    generalize k.step ⟨pid, call⟩ = k' at he ⊢
    cases he with
    | openat ref fs inode _ => exact absurd ⟨_, _, _, rfl⟩ hopen
    | read _ _ => exact h.placed.read _ _
    | write _ _ => exact h.placed.write _ _
    | close _ _ => exact h.placed.close _
    | _ => exact h.placed

theorem filesInv_boot : FilesInv boot where
  desc := descInv_boot
  placed := placed_bootVfs

theorem filesInv_step (k : KernelState) (req : Request) (h : FilesInv k) :
    FilesInv (k.step req) where
  desc := descInv_step k req h.desc
  placed := placed_step k req h

end KernelState

end ComputeKernel.Kernel
