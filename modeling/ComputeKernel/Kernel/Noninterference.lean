import ComputeKernel.Kernel.Groups

/-!
# Isolation of groups

What a group of processes is told does not depend on anything that the other processes do, over
whole runs: the answers to its members are those that they would get without the others.
-/

namespace ComputeKernel.Kernel

open Lib Lib.Run Lib.Service Fs Memory Tasks Vfs VirtualMemoryManager

namespace KernelState

variable (group : Int → Bool)

def heldBy (k : KernelState) : List Int :=
  (k.processTable.table.entries.filter fun entry => group entry.1).flatMap fun entry =>
    entry.2.fdt.table.keys

def inoOf (k : KernelState) (fd : Int) : Option Int :=
  (k.vfs.openFiles.get? fd).map OpenFile.ino

/-- A call of a member that asks for no number and gets the frames that it asks for. -/
def Private (k : KernelState) (pid : Int) : Syscall → Prop
  | .openat _ _ _ => False
  | .fork => False
  | .kill targetPid _ => group targetPid
  | .mmap _ length _ _ => framesFor length ≤ k.vmm.pmm.freePages
  | .brk newBrk => framesFor (newBrk - k.currentBrk pid) ≤ k.vmm.pmm.freePages
  | _ => True

/-- A call of another process that writes to no file that is open in the group, takes no
number of the group and reaps no member. -/
def Harmless (k : KernelState) (pid : Int) : Syscall → Prop
  | .write fd _ => k.inoOf fd ∉ (k.heldBy group).map k.inoOf
  | .fork => group k.processTable.pidAlloc.alloc.1 = false
  | .wait4 _ _ => (k.reapable pid).all fun child => !group child
  | _ => True

def Spares (k : KernelState) (req : Request) : Prop :=
  if group req.pid then k.Private group req.pid req.call else k.Harmless group req.pid req.call

def ClosedUnder (k : KernelState) : Prop :=
  ∀ entry ∈ k.processTable.table.entries, group entry.1 →
    ∀ child ∈ entry.2.children, group child

instance (k : KernelState) (pid : Int) : DecidablePred (k.Private group pid) := fun call =>
  match call with
  | .openat _ _ _ => isFalse id
  | .fork => isFalse id
  | .kill targetPid _ => inferInstanceAs (Decidable (group targetPid = true))
  | .mmap _ length _ _ => inferInstanceAs (Decidable (framesFor length ≤ _))
  | .brk newBrk => inferInstanceAs (Decidable (framesFor (newBrk - _) ≤ _))
  | .read _ _ | .write _ _ | .close _ | .munmap _ _ | .nanosleep _ _ | .getpid | .execve _ _ _
  | .exit _ | .wait4 _ _ | .unknown => isTrue trivial

instance (k : KernelState) (pid : Int) : DecidablePred (k.Harmless group pid) := fun call =>
  match call with
  | .write fd _ => inferInstanceAs (Decidable (¬ k.inoOf fd ∈ _))
  | .fork => inferInstanceAs (Decidable (group _ = false))
  | .wait4 _ _ => inferInstanceAs (Decidable (Option.all _ _ = true))
  | .read _ _ | .openat _ _ _ | .close _ | .mmap _ _ _ _ | .munmap _ _ | .brk _ | .nanosleep _ _
  | .getpid | .execve _ _ _ | .exit _ | .kill _ _ | .unknown => isTrue trivial

instance (k : KernelState) : DecidablePred (k.Spares group) := fun req =>
  inferInstanceAs (Decidable (if group req.pid then k.Private group req.pid req.call
    else k.Harmless group req.pid req.call))

instance (k : KernelState) : Decidable (k.ClosedUnder group) :=
  inferInstanceAs (Decidable (∀ entry ∈ k.processTable.table.entries, group entry.1 →
    ∀ child ∈ entry.2.children, group child))

variable {group} {k : KernelState} {s : System}

theorem mem_heldBy {fd : Int} :
    fd ∈ k.heldBy group ↔ ∃ pid, group pid ∧ k.processTable.Holds pid fd := by
  unfold heldBy ProcessTable.Holds ProcessTable.get
  simp only [List.mem_flatMap, List.mem_filter, Prod.exists, Dict.mem_entries]
  constructor
  · rintro ⟨pid, proc, ⟨hproc, hpid⟩, hfd⟩
    exact ⟨pid, hpid, proc, hproc, hfd⟩
  · rintro ⟨pid, hpid, proc, hproc, hfd⟩
    exact ⟨pid, proc, ⟨hproc, hpid⟩, hfd⟩

namespace Models

theorem exists_file (h : Models k s) {fd position : Int} {names : List Str}
    (hfd : s.files.handles fd = some (names, position)) :
    ∃ ino node, k.inoOf fd = some ino ∧ k.vfs.Leads names ino ∧ s.files.tree names = some node := by
  rcases h.2.files.handle_cases fd with
    ⟨-, hnone⟩ | ⟨file, names', inode, hfile, hhandle, hleads, -, htree⟩
  · rw [hfd] at hnone
    cases hnone
  · rw [hfd] at hhandle
    cases hhandle
    exact ⟨file.ino, _, by rw [inoOf, hfile, Option.map_some], hleads, htree⟩

theorem spares (h : Models k s) {req : Request} (hspares : k.Spares group req) :
    s.Spares group req := by
  obtain ⟨pid, call⟩ := req
  unfold KernelState.Spares at hspares
  unfold System.Spares
  split
  · rename_i hpid
    rw [if_pos hpid] at hspares
    cases call with
    | mmap addr length flags name =>
        change framesFor length ≤ s.free
        rw [h.2.free]
        exact hspares
    | brk newBrk =>
        change framesFor (newBrk - s.brk pid) ≤ s.free
        rw [h.2.free, h.2.brk]
        exact hspares
    | _ => exact hspares
  · rename_i hpid
    rw [if_neg hpid] at hspares
    cases call with
    | write fd data =>
        rintro names position hfd ⟨other, fd', position', hother, howner, hfd'⟩
        -- the same names lead to one inode
        obtain ⟨ino, -, hino, hleads, -⟩ := h.exists_file hfd
        obtain ⟨ino', -, hino', hleads', -⟩ := h.exists_file hfd'
        have hsame : k.inoOf fd' = k.inoOf fd := by
          rw [hino, hino', h.2.files.rooted.leads_end hleads hleads']
        have hheld : fd' ∈ k.heldBy group :=
          mem_heldBy.mpr ⟨other, hother, (h.2.owner other fd').mp howner⟩
        exact hspares (List.mem_map.mpr ⟨fd', hheld, hsame⟩)
    | fork =>
        change group s.pids.alloc.1 = false
        rw [h.2.pids]
        exact hspares
    | wait4 childPid options =>
        intro child hchild
        change Option.all _ (k.reapable pid) = true at hspares
        rw [← h.2.zombieChild_eq, hchild] at hspares
        exact Bool.eq_false_of_not_eq_true (by simpa using hspares)
    | _ => exact hspares

theorem alike (h : Models k s) (hclosed : k.ClosedUnder group) : System.Alike group s s where
  phase _ _ := rfl
  children _ _ := rfl
  closed pid hpid child hchild := by
    rw [h.2.children] at hchild
    obtain ⟨proc, hproc, hlisted⟩ := lists_iff_mem_childrenOf.mpr hchild
    exact hclosed (pid, proc) (Dict.mem_entries.mpr hproc) hpid child hlisted
  owner _ _ _ := Iff.rfl
  below pid _ fd hfd := by
    rw [← h.2.files.nextFd]
    exact h.1.descriptors.holds_lt pid fd ((h.2.owner pid fd).mp hfd)
  handles _ _ _ _ := rfl
  content names := by
    rintro ⟨pid, fd, position, -, -, hfd⟩
    obtain ⟨-, node, -, -, hnode⟩ := h.exists_file hfd
    exact ⟨node, hnode, hnode⟩
  starts _ _ := rfl
  brk _ _ := rfl
  free := Nat.le_refl _

end Models

/-- After any calls, and however the rest of the system goes on, a group gets the answers that it
would get alone: as long as its members open nothing, do not fork and are given the memory they
ask for, and the others write to none of its files, take none of its numbers and reap no
member. -/
theorem groups_isolated (group : Int → Bool) (setup requests : List Request) :
    let k := after serve boot setup
    k.ClosedUnder group → Guarded step (Spares group) k requests →
      repliesTo (fun req => group req.pid) true serve k requests =
        replies serve k (requestsOf (fun req => group req.pid) true requests) := by
  intro k hclosed hspares
  have hmodels : Models k (after System.respond System.boot setup) :=
    refines_system.after ⟨inv_boot, mirrors_boot⟩ setup
  rw [refines_system.repliesTo_eq hmodels,
    (System.separate_group group).repliesTo_eq (hmodels.alike hclosed)
      (refines_system.guarded (G := Spares group) (fun h => h.spares) hmodels hspares),
    refines_system.replies_eq hmodels]

/-- Two children of the init process, of which one reads, maps memory and exits while the other
writes, opens and forks and the init process forks and reaps. -/
theorem groups_isolated_child :
    let group : Int → Bool := fun pid => pid == 3
    let setup : List Request :=
      [⟨2, .fork⟩, ⟨2, .fork⟩, ⟨3, .openat 0 "/etc/hostname".toList "r".toList⟩,
        ⟨4, .openat 0 "/etc/version".toList "r".toList⟩]
    let requests : List Request :=
      [⟨4, .write 4 [7, 7]⟩, ⟨3, .read 3 5⟩, ⟨4, .openat 0 "/etc/version".toList "w".toList⟩,
        ⟨2, .fork⟩, ⟨3, .mmap 0 4096 "r--".toList []⟩, ⟨4, .exit 0⟩, ⟨2, .wait4 (-1) 0⟩,
        ⟨3, .close 3⟩, ⟨3, .close 4⟩, ⟨3, .exit 1⟩]
    let k := after serve boot setup
    repliesTo (fun req => group req.pid) true serve k requests =
        replies serve k (requestsOf (fun req => group req.pid) true requests) ∧
      repliesTo (fun req => group req.pid) true serve k requests =
        [.ok 5, .ok 0x7f0000000000, .ok 0, .ok (-EBADF), .ok 0] := by
  intro group setup requests k
  have hclosed : k.ClosedUnder group := by decide +kernel
  have hspares : Guarded step (Spares group) k requests := by decide +kernel
  exact ⟨groups_isolated group setup requests hclosed hspares, by decide +kernel⟩

end KernelState

end ComputeKernel.Kernel
