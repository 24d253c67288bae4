import ComputeKernel.Kernel.Boot
import ComputeKernel.Kernel.Descriptors
import ComputeKernel.Kernel.Values
import ComputeKernel.Vfs.OpenFiles

/-!
# Calling conventions

A program passes six registers, the shell passes words.  The dispatcher converts neither to
the types that the handlers declare, and tests for them in few places.
-/

namespace ComputeKernel.Kernel

open Lib Lib.Run Fs Memory Tasks Vfs

structure SyscallContext where
  nr : Int
  rdi : Int := 0
  rsi : Int := 0
  rdx : Int := 0
  r10 : Int := 0
  r8 : Int := 0
  r9 : Int := 0
  pid : Int := 0
  deriving DecidableEq, Repr

def SyscallContext.args (ctx : SyscallContext) : List Value :=
  [.int ctx.rdi, .int ctx.rsi, .int ctx.rdx, .int ctx.r10, .int ctx.r8, .int ctx.r9]

/-- The log line has all six registers, also for calls that take fewer. -/
def SyscallContext.Loggable (ctx : SyscallContext) : Prop :=
  Kernel.Loggable ctx.pid ctx.nr (ctx.args.map Value.arg)

instance : DecidablePred SyscallContext.Loggable := fun ctx =>
  inferInstanceAs (Decidable (Kernel.Loggable ctx.pid ctx.nr (ctx.args.map Value.arg)))

namespace KernelState

def dispatchContext (k : KernelState) (ctx : SyscallContext) : Outcome :=
  k.dispatchValues ctx.pid ctx.nr ctx.args

/-- The shell makes a new dispatcher for every call, with breaks of its own. -/
def doSyscall (k : KernelState) (pid nr : Int) (words : List Str) : Outcome :=
  let outcome := { k with brk := Dict.empty : KernelState }.dispatchValues pid nr
    (words.map Value.str)
  (outcome.1, { outcome.2 with brk := k.brk })

/-! ## Runs -/

inductive Event
  | typed (pid nr : Int) (args : List Arg)
  | context (ctx : SyscallContext)
  | shell (pid nr : Int) (words : List Str)
  | vfs (call : VFS.Call Unit)
  | spawn (name : Str) (ppid uid gid : Int) (cmdline : Str)
  | remove (pid : Int)
  | memory (op : VirtualMemoryManager.Op)

def handle (k : KernelState) : Event → KernelState
  | .typed pid nr args =>
      if Loggable pid nr args then
        match k.dispatch pid nr args with
        | none => k
        | some (_, k) => k
      else k
  | .context ctx => (k.dispatchContext ctx).2
  | .shell pid nr words => (k.doSyscall pid nr words).2
  | .vfs call => { k with vfs := k.vfs.perform call }
  | .spawn name ppid uid gid cmdline =>
      { k with processTable := (k.processTable.spawn name ppid uid gid cmdline).2 }
  | .remove pid => { k with processTable := k.processTable.remove pid }
  | .memory op => { k with vmm := k.vmm.step op }

/-- Something is mounted, and the numbers handed out are not negative. -/
structure Sane (k : KernelState) : Prop where
  mounted : k.vfs.mounts ≠ []
  three_le : 3 ≤ k.vfs.nextFd
  pids : k.processTable.PidsOk

end KernelState

end ComputeKernel.Kernel

namespace ComputeKernel.Vfs.VFS

open Lib Fs

theorem perform_mounts_nextFd {ρ : Type} [DecidableEq ρ] (vfs : VFS ρ TmpFS) (call : Call ρ) :
    (vfs.mounts ≠ [] → (vfs.perform call).mounts ≠ []) ∧
      vfs.nextFd ≤ (vfs.perform call).nextFd := by
  have hsame : ∀ {vfs' : VFS ρ TmpFS}, SameTargets vfs vfs' → vfs'.nextFd = vfs.nextFd →
      (vfs.mounts ≠ [] → vfs'.mounts ≠ []) ∧ vfs.nextFd ≤ vfs'.nextFd := by
    intro vfs' htargets hnext
    rw [htargets.mounts, hnext]
    exact ⟨id, Int.le_refl _⟩
  cases call with
  | mount mountpoint fs source =>
      refine ⟨fun _ hnil => ?_, Int.le_refl _⟩
      have hlength := congrArg List.length hnil
      simp [perform, mount] at hlength
  | open_ path flags =>
      rcases open_targets vfs path flags with ⟨htargets, hnext⟩ |
        ⟨ref, ino, -, hmounts, hnext, -⟩
      · exact hsame htargets hnext
      · change (_ → (vfs.open_ path flags).2.mounts ≠ []) ∧
          _ ≤ (vfs.open_ path flags).2.nextFd
        rw [hmounts, hnext]
        exact ⟨id, by omega⟩
  | mkdir path => exact hsame (mkdir_sameTargets vfs path) (mkdir_nextFd vfs path)
  | createFile path content =>
      exact hsame (createFile_sameTargets vfs path content) (createFile_nextFd vfs path content)
  | writePath path data =>
      exact hsame (writePath_sameTargets vfs path data) (writePath_nextFd vfs path data)
  | read fd size => exact hsame (read_sameTargets vfs fd size) (read_nextFd vfs fd size)
  | write fd data => exact hsame (write_sameTargets vfs fd data) (write_nextFd vfs fd data)
  | close fd =>
      change (_ → (vfs.close fd).2.mounts ≠ []) ∧ _ ≤ (vfs.close fd).2.nextFd
      unfold close
      split
      · exact ⟨id, Int.le_refl _⟩
      · exact ⟨id, Int.le_refl _⟩

end ComputeKernel.Vfs.VFS

namespace ComputeKernel.Kernel.KernelState

open Lib Lib.Run Fs Memory Tasks Vfs

theorem mounts_effect {k k' : KernelState} {pid : Int} {call : Syscall}
    {result : Except FsError Int} (he : Effect k pid call result k') :
    k.vfs.mounts ≠ [] → k'.vfs.mounts ≠ [] := by
  cases he with
  | @read fd size proc hproc hfd => exact (k.vfs.perform_mounts_nextFd (.read fd size)).1
  | @write fd data proc hproc hfd => exact (k.vfs.perform_mounts_nextFd (.write fd data)).1
  | @close fd proc hproc hfd => exact (k.vfs.perform_mounts_nextFd (.close fd)).1
  | _ => exact id

theorem sane_effect {k k' : KernelState} {pid : Int} {call : Syscall}
    {result : Except FsError Int} (h : Sane k) (he : Effect k pid call result k') : Sane k' where
  mounted := mounts_effect he h.mounted
  three_le := Int.le_trans h.three_le (nextFd_effect he)
  pids := pidsOk_effect h.pids he

theorem Sane.withBrk {k : KernelState} (h : Sane k) (brk : Dict Int Int) :
    Sane { k with brk := brk } :=
  ⟨h.mounted, h.three_le, h.pids⟩

theorem Sane.leaves {k : KernelState} {pid : Int} {outcome : Outcome} (h : Sane k)
    (hleaves : k.Leaves pid outcome) : Sane outcome.2 := by
  rcases hleaves with ⟨call, hcall⟩ | ⟨vmm, hvmm⟩
  · rw [hcall]
    exact sane_effect h (k.perform_effect pid (by have := h.three_le; omega) call)
  · rw [hvmm]
    exact ⟨h.mounted, h.three_le, h.pids⟩

theorem sane_handle (k : KernelState) (event : Event) (h : Sane k) : Sane (k.handle event) := by
  cases event with
  | typed pid nr args =>
      unfold handle
      dsimp only
      split
      · cases hdispatch : k.dispatch pid nr args with
        | none => exact h
        | some outcome =>
            obtain ⟨call, -, rfl⟩ := Option.map_eq_some_iff.mp hdispatch
            exact h.leaves (k.leaves_performs pid call)
      · exact h
  | context ctx => exact h.leaves (k.leaves_dispatchValues ctx.pid ctx.nr ctx.args)
  | shell pid nr words =>
      exact ((h.withBrk _).leaves (leaves_dispatchValues _ pid nr _)).withBrk _
  | vfs call =>
      have hcall := k.vfs.perform_mounts_nextFd call
      exact ⟨hcall.1 h.mounted, Int.le_trans h.three_le hcall.2, h.pids⟩
  | spawn name ppid uid gid cmdline =>
      exact ⟨h.mounted, h.three_le, h.pids.spawn name ppid uid gid cmdline⟩
  | remove pid => exact ⟨h.mounted, h.three_le, h.pids.remove pid⟩
  | memory op => exact ⟨h.mounted, h.three_le, h.pids⟩

theorem mounts_bootVfs : bootVfs.mounts = [⟨['/'], (), "tmpfs".toList⟩] := by
  have hdirs : ∀ (dirs : List Str) (vfs : VFS Unit TmpFS),
      (dirs.foldl (fun vfs dir => (vfs.mkdir ('/' :: dir)).2) vfs).mounts = vfs.mounts := by
    intro dirs
    induction dirs with
    | nil => exact fun vfs => rfl
    | cons dir dirs ih => exact fun vfs => (ih _).trans (vfs.mkdir_sameTargets _).mounts
  unfold bootVfs
  rw [(VFS.createFile_sameTargets _ _ _).mounts, (VFS.createFile_sameTargets _ _ _).mounts, hdirs]
  rfl

theorem sane_run (events : List Event) : Sane (run handle boot events) := by
  apply run_invariant sane_handle
  refine ⟨?_, Int.le_of_eq bootVfs_nextFd.symm, inv_boot.pids⟩
  change bootVfs.mounts ≠ []
  rw [mounts_bootVfs]
  exact List.cons_ne_nil _ _

end ComputeKernel.Kernel.KernelState
