import ComputeKernel.Kernel.Invariant
import ComputeKernel.Lib.Run

/-!
# Runs of system calls

A request is a call together with the number of the process that makes it.  Runs of
requests from the booted state lead to the reachable states and to no others.
-/

namespace ComputeKernel.Kernel

open Lib Lib.Run Fs Memory Tasks Vfs

structure Request where
  pid : Int
  call : Syscall
  deriving DecidableEq

namespace KernelState

def step (k : KernelState) (req : Request) : KernelState :=
  (k.perform req.pid req.call).2

def answer (k : KernelState) (req : Request) : Except FsError Int :=
  (k.perform req.pid req.call).1

theorem effect_step {k : KernelState} (h : Inv k) (req : Request) :
    Effect k req.pid req.call (k.answer req) (k.step req) := by
  apply perform_effect
  have := h.descriptors.three_le_nextFd
  omega

theorem inv_step (k : KernelState) (req : Request) (h : Inv k) : Inv (k.step req) :=
  inv_effect h (effect_step h req)

theorem inv_run (reqs : List Request) : Inv (run step boot reqs) :=
  run_invariant inv_step inv_boot reqs

/-! ## Reachable states -/

/-- A number and arguments that make a call; those that the call ignores are left out. -/
def encode : Syscall → Int × List Arg
  | .read fd size => (0, [.int fd, .int size])
  | .write fd data => (1, [.int fd, .bytes data])
  | .openat dirfd path flags => (2, [.int dirfd, .str path, .str flags])
  | .close fd => (3, [.int fd])
  | .mmap addr length flags name => (9, [.int addr, .int length, .str flags, .str name])
  | .munmap addr length => (11, [.int addr, .int length])
  | .brk newBrk => (12, [.int newBrk])
  | .nanosleep seconds nanos => (35, [.int seconds, .int nanos])
  | .getpid => (39, [])
  | .fork => (57, [])
  | .execve path _ _ => (59, [.str path])
  | .exit code => (60, [.int code])
  | .wait4 childPid options => (61, [.int childPid, .int options])
  | .kill targetPid signum => (62, [.int targetPid, .int signum])
  | .unknown => (63, [])

theorem dispatch_encode (k : KernelState) (pid : Int) (call : Syscall) :
    k.dispatch pid (encode call).1 (encode call).2 = some (k.perform pid call) := by
  cases call <;> rfl

theorem reachable_iff_run (k : KernelState) :
    Reachable k ↔ ∃ reqs, run step boot reqs = k := by
  constructor
  · intro h
    induction h with
    | boot => exact ⟨[], rfl⟩
    | @dispatch k k' pid nr args result _ hcall ih =>
        obtain ⟨reqs, hrun⟩ := ih
        obtain ⟨call, -, hperform⟩ := Option.map_eq_some_iff.mp hcall
        refine ⟨reqs ++ [⟨pid, call⟩], ?_⟩
        rw [run_concat, hrun, step, hperform]
  · rintro ⟨reqs, rfl⟩
    apply run_invariant _ Reachable.boot
    intro k req hk
    exact .dispatch hk (dispatch_encode k req.pid req.call)

end KernelState

end ComputeKernel.Kernel
