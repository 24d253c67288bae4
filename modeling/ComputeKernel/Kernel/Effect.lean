import ComputeKernel.Kernel.Syscall
import ComputeKernel.Vfs.Descriptors

/-!
# Effects of system calls

What one call can do to the tables, with the guards under which it does it.
Everything about single calls below is derived from this relation, so that the
handlers are unfolded here only.
-/

namespace ComputeKernel.Kernel

open Lib Fs Memory Tasks Vfs

/-- A call does nothing, or the one thing its handler is there for. -/
inductive Effect (k : KernelState) (pid : Int) :
    Syscall → Except FsError Int → KernelState → Prop
  | nothing (call : Syscall) (result : Except FsError Int) : Effect k pid call result k
  | read {fd size : Int} {proc : Process} (hproc : k.processTable.get pid = some proc)
      (hfd : fd ∈ proc.fdt.table) :
      Effect k pid (.read fd size) (.ok (k.vfs.read fd size).1.length)
        { k with vfs := (k.vfs.read fd size).2 }
  | write {fd : Int} {data : Bytes} {proc : Process}
      (hproc : k.processTable.get pid = some proc) (hfd : fd ∈ proc.fdt.table) :
      Effect k pid (.write fd data) (.ok (k.vfs.write fd data).1)
        { k with vfs := (k.vfs.write fd data).2 }
  | openat {dirfd : Int} {path flags : Str} (ref : Unit) (fs : TmpFS) (inode : Inode)
      (hlive : pid ∈ k.processTable.table) :
      Effect k pid (.openat dirfd path flags) (.ok k.vfs.nextFd)
        { k with
          vfs := (k.vfs.setFs ref fs).addOpenFile path flags ref inode
          processTable := k.processTable.update pid fun proc =>
            proc.setFd k.vfs.nextFd path flags }
  | close {fd : Int} {proc : Process} (hproc : k.processTable.get pid = some proc)
      (hfd : fd ∈ proc.fdt.table) :
      Effect k pid (.close fd) (.ok 0)
        { k with
          vfs := (k.vfs.close fd).2
          processTable := k.processTable.update pid fun other =>
            other.setFdt (proc.fdt.close fd).2 }
  | mmap {addr length : Int} {flags name : Str} (hlive : pid ∈ k.processTable.table)
      (hlength : 0 < length)
      (hmap : (k.vmm.mapPages pid (mmapAddr addr) length flags name).1 = true) :
      Effect k pid (.mmap addr length flags name) (.ok (mmapAddr addr))
        { k with vmm := (k.vmm.mapPages pid (mmapAddr addr) length flags name).2 }
  | munmap {addr length : Int} :
      Effect k pid (.munmap addr length) (.ok 0)
        { k with vmm := (k.vmm.unmapPages pid addr).2 }
  | brk {newBrk : Int} (hgrow : k.currentBrk pid < newBrk) :
      Effect k pid (.brk newBrk) (.ok newBrk)
        { k with
          vmm := (k.vmm.mapPages pid (k.currentBrk pid) (newBrk - k.currentBrk pid)
            "rw-".toList "[heap]".toList).2
          brk := k.brk.set pid newBrk }
  | fork {parent : Process} (hparent : k.processTable.get pid = some parent) :
      Effect k pid .fork (.ok k.processTable.pidAlloc.alloc.1)
        { k with
          processTable := (k.processTable.spawn parent.name pid parent.creds.uid
            parent.creds.gid parent.cmdline).2.update k.processTable.pidAlloc.alloc.1
              fun child => child.setCwd parent.cwd
          vmm := k.vmm.createAddressSpace k.processTable.pidAlloc.alloc.1 }
  | execve {path : Str} {argv envp : Option (List Str)} :
      Effect k pid (.execve path argv envp) (.ok 0)
        { k with processTable := k.processTable.update pid fun proc => proc.execute path }
  | exit {code : Int} :
      Effect k pid (.exit code) (.ok 0)
        { k with processTable := k.processTable.update pid fun proc => proc.terminate code }
  | wait4 {childPid options : Int} {parent : Process} {child : Int}
      (hparent : k.processTable.get pid = some parent) (hchild : child ∈ parent.children)
      (hzombie : k.processTable.isZombie child = true) :
      Effect k pid (.wait4 childPid options) (.ok child)
        { k with processTable := k.processTable.remove child }

namespace KernelState

theorem neg_of_mem_errorCodes {r : Int} (h : r ∈ errorCodes) : r < 0 := by
  have hall : ∀ code ∈ errorCodes, code < 0 := by decide
  exact hall r h

theorem sysFork_of_get {k : KernelState} {pid : Int} {parent : Process}
    (hparent : k.processTable.get pid = some parent) :
    k.sysFork pid = (k.processTable.pidAlloc.alloc.1,
      { k with
        processTable := (k.processTable.spawn parent.name pid parent.creds.uid
          parent.creds.gid parent.cmdline).2.update k.processTable.pidAlloc.alloc.1
            fun child => child.setCwd parent.cwd
        vmm := k.vmm.createAddressSpace k.processTable.pidAlloc.alloc.1 }) := by
  unfold sysFork
  rw [hparent]
  rfl

theorem sysFork_of_none {k : KernelState} {pid : Int}
    (hparent : k.processTable.get pid = none) : k.sysFork pid = (-EINVAL, k) := by
  unfold sysFork
  rw [hparent]

variable (k : KernelState) (pid : Int)

theorem sysRead_effect (fd size : Int) :
    Effect k pid (.read fd size) (.ok (k.sysRead pid fd size).1)
      (k.sysRead pid fd size).2 := by
  unfold sysRead
  cases hproc : k.processTable.get pid with
  | none => exact .nothing _ _
  | some proc =>
      dsimp only
      cases hfd : proc.fdt.get fd with
      | none => exact .nothing _ _
      | some entry => exact .read hproc (Dict.mem_of_get? hfd)

theorem sysWrite_effect (fd : Int) (data : Bytes) :
    Effect k pid (.write fd data) (.ok (k.sysWrite pid fd data).1)
      (k.sysWrite pid fd data).2 := by
  unfold sysWrite
  cases hproc : k.processTable.get pid with
  | none => exact .nothing _ _
  | some proc =>
      dsimp only
      split
      · exact .nothing _ _
      · cases hfd : proc.fdt.get fd with
        | none => exact .nothing _ _
        | some entry => exact .write hproc (Dict.mem_of_get? hfd)

def Opens (path : Str) : Prop :=
  pid ∈ k.processTable.table ∧ path ≠ [] ∧ (k.vfs.stat path).isSome

variable {k pid} in
theorem not_opens_iff {path : Str} : ¬ k.Opens pid path ↔
    (pid ∈ k.processTable.table → path = [] ∨ k.vfs.stat path = none) := by
  unfold Opens
  rw [Option.isSome_iff_ne_none]
  tauto

/-- An `openat` opens nothing and reports an error, or enters the next descriptor.  It would
enter none that is negative, but the counter starts at 3. -/
theorem sysOpenat_cases (hfd : 0 ≤ k.vfs.nextFd) (dirfd : Int) (path flags : Str) :
    (¬ k.Opens pid path ∧ ∃ r ∈ errorCodes, k.sysOpenat pid dirfd path flags = (.ok r, k)) ∨
      (k.Opens pid path ∧ ∃ ref fs inode, k.sysOpenat pid dirfd path flags = (.ok k.vfs.nextFd,
        { k with
          vfs := (k.vfs.setFs ref fs).addOpenFile path flags ref inode
          processTable := k.processTable.update pid fun proc =>
            proc.setFd k.vfs.nextFd path flags })) := by
  unfold sysOpenat Opens
  cases hproc : k.processTable.get pid with
  | none =>
      have hdead : pid ∉ k.processTable.table := Dict.get?_eq_none.mp hproc
      exact Or.inl ⟨fun hopens => hdead hopens.1, _, by decide, rfl⟩
  | some proc =>
      dsimp only
      split
      · rename_i hpath
        exact Or.inl ⟨fun hopens => hopens.2.1 hpath, _, by decide, rfl⟩
      · rename_i hpath
        rcases k.vfs.open_cases path flags with ⟨hstat, hopen⟩ | ⟨hstat, ref, fs, inode, hopen⟩
        · rw [hopen]
          refine Or.inl ⟨fun hopens => ?_, -2, by decide, rfl⟩
          exact Option.isSome_iff_ne_none.mp hopens.2.2 hstat
        · rw [hopen]
          dsimp only
          rw [if_neg (Int.not_lt.mpr hfd)]
          exact Or.inr ⟨⟨Dict.mem_of_get? hproc, hpath, hstat⟩, ref, fs, inode, rfl⟩

theorem sysOpenat_effect (hfd : 0 ≤ k.vfs.nextFd) (dirfd : Int) (path flags : Str) :
    Effect k pid (.openat dirfd path flags) (k.sysOpenat pid dirfd path flags).1
      (k.sysOpenat pid dirfd path flags).2 := by
  rcases k.sysOpenat_cases pid hfd dirfd path flags with
    ⟨-, r, -, hopen⟩ | ⟨hopens, ref, fs, inode, hopen⟩
  · rw [hopen]
    exact .nothing _ _
  · rw [hopen]
    exact .openat ref fs inode hopens.1

theorem sysClose_effect (fd : Int) :
    Effect k pid (.close fd) (.ok (k.sysClose pid fd).1) (k.sysClose pid fd).2 := by
  unfold sysClose
  cases hproc : k.processTable.get pid with
  | none => exact .nothing _ _
  | some proc =>
      dsimp only
      by_cases hfd : fd ∈ proc.fdt.table
      · have heffect := Effect.close hproc hfd
        rw [FileDescriptorTable.close_of_mem hfd] at heffect ⊢
        exact heffect
      · rw [FileDescriptorTable.close_of_not_mem hfd]
        exact .nothing _ _

theorem sysMmap_effect (addr length : Int) (flags name : Str) :
    Effect k pid (.mmap addr length flags name) (.ok (k.sysMmap pid addr length flags name).1)
      (k.sysMmap pid addr length flags name).2 := by
  unfold sysMmap
  split
  · exact .nothing _ _
  · rename_i hlength
    cases hproc : k.processTable.get pid with
    | none => exact .nothing _ _
    | some proc =>
        dsimp only
        cases hmap : k.vmm.mapPages pid (mmapAddr addr) length flags name with
        | mk ok vmm =>
            cases ok with
            | false =>
                have hsame : vmm = k.vmm := by
                  have := VirtualMemoryManager.mapPages_of_false (congrArg Prod.fst hmap)
                  rwa [hmap] at this
                rw [hsame]
                exact .nothing _ _
            | true =>
                have heffect := Effect.mmap (Dict.mem_of_get? hproc) (Int.not_le.mp hlength)
                  (congrArg Prod.fst hmap)
                rwa [hmap] at heffect

theorem sysMunmap_effect (addr length : Int) :
    Effect k pid (.munmap addr length) (.ok (k.sysMunmap pid addr length).1)
      (k.sysMunmap pid addr length).2 := by
  unfold sysMunmap
  split
  · exact .nothing _ _
  · dsimp only
    cases hunmap : (k.vmm.unmapPages pid addr).1 with
    | false =>
        rw [VirtualMemoryManager.unmapPages_of_false hunmap]
        exact .nothing _ _
    | true => exact .munmap

theorem sysBrk_effect (newBrk : Int) :
    Effect k pid (.brk newBrk) (.ok (k.sysBrk pid newBrk).1) (k.sysBrk pid newBrk).2 := by
  unfold sysBrk
  dsimp only
  split
  · exact .nothing _ _
  · rename_i hgrow
    exact .brk (by omega)

theorem sysFork_effect :
    Effect k pid .fork (.ok (k.sysFork pid).1) (k.sysFork pid).2 := by
  cases hparent : k.processTable.get pid with
  | none =>
      rw [sysFork_of_none hparent]
      exact .nothing _ _
  | some parent =>
      rw [sysFork_of_get hparent]
      exact .fork hparent

theorem sysExecve_effect (path : Str) (argv envp : Option (List Str)) :
    Effect k pid (.execve path argv envp) (.ok (k.sysExecve pid path argv envp).1)
      (k.sysExecve pid path argv envp).2 := by
  unfold sysExecve
  cases k.processTable.get pid with
  | none => exact .nothing _ _
  | some proc => exact .execve

theorem sysExit_effect (code : Int) :
    Effect k pid (.exit code) (.ok (k.sysExit pid code).1) (k.sysExit pid code).2 := by
  unfold sysExit
  cases k.processTable.get pid with
  | none => exact .nothing _ _
  | some proc => exact .exit

theorem sysWait4_effect (childPid options : Int) :
    Effect k pid (.wait4 childPid options) (.ok (k.sysWait4 pid childPid options).1)
      (k.sysWait4 pid childPid options).2 := by
  unfold sysWait4
  cases hparent : k.processTable.get pid with
  | none => exact .nothing _ _
  | some parent =>
      dsimp only
      cases hfind : parent.children.find? k.processTable.isZombie with
      | none => exact .nothing _ _
      | some child =>
          exact .wait4 hparent (List.mem_of_find?_eq_some hfind) (List.find?_some hfind)

theorem perform_effect (hfd : 0 ≤ k.vfs.nextFd) (call : Syscall) :
    Effect k pid call (k.perform pid call).1 (k.perform pid call).2 := by
  cases call with
  | read fd size => exact k.sysRead_effect pid fd size
  | write fd data => exact k.sysWrite_effect pid fd data
  | openat dirfd path flags => exact k.sysOpenat_effect pid hfd dirfd path flags
  | close fd => exact k.sysClose_effect pid fd
  | mmap addr length flags name => exact k.sysMmap_effect pid addr length flags name
  | munmap addr length => exact k.sysMunmap_effect pid addr length
  | brk newBrk => exact k.sysBrk_effect pid newBrk
  | nanosleep seconds nanos => exact .nothing _ _
  | getpid => exact .nothing _ _
  | fork => exact k.sysFork_effect pid
  | execve path argv envp => exact k.sysExecve_effect pid path argv envp
  | exit code => exact k.sysExit_effect pid code
  | wait4 childPid options => exact k.sysWait4_effect pid childPid options
  | kill targetPid signum => exact .nothing _ _
  | unknown => exact .nothing _ _

theorem perform_returns (call : Syscall) : ∃ r, (k.perform pid call).1 = .ok r := by
  cases call with
  | openat dirfd path flags =>
      change ∃ r, (k.sysOpenat pid dirfd path flags).1 = .ok r
      unfold sysOpenat
      cases k.processTable.get pid with
      | none => exact ⟨_, rfl⟩
      | some proc =>
          dsimp only
          split
          · exact ⟨_, rfl⟩
          · rcases k.vfs.open_cases path flags with ⟨-, hopen⟩ | ⟨-, ref, fs, inode, hopen⟩
            · rw [hopen]
              exact ⟨_, rfl⟩
            · rw [hopen]
              dsimp only
              split
              · exact ⟨_, rfl⟩
              · exact ⟨_, rfl⟩
  | _ => exact ⟨_, rfl⟩

end KernelState

end ComputeKernel.Kernel
