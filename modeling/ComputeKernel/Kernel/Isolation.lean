import ComputeKernel.Kernel.Invariant

/-!
# Process isolation

A call of one process leaves everything that belongs to another process as it
was, unless the call is `wait4` and reaps the other process.
-/

namespace ComputeKernel.Kernel.KernelState

open Lib Fs Memory Tasks Vfs

structure SameFor (q : Int) (k k' : KernelState) : Prop where
  process : k'.processTable.get q = k.processTable.get q
  space : k'.vmm.addressSpaces.get? q = k.vmm.addressSpaces.get? q
  brk : k'.brk.get? q = k.brk.get? q
  frames : k'.vmm.pmm.framesOf q = k.vmm.pmm.framesOf q
  openFiles : ∀ fd, k.processTable.Holds q fd →
    k'.vfs.openFiles.get? fd = k.vfs.openFiles.get? fd

def Reaped (p q : Int) (k k' : KernelState) : Prop :=
  ∃ parent child, k.processTable.get p = some parent ∧ k.processTable.get q = some child ∧
    q ∈ parent.children ∧ child.ppid = p ∧ child.state = .zombie ∧
    k'.processTable.get q = none

section Effect

variable {k k' : KernelState} {p q : Int} {call : Syscall} {result : Except FsError Int}

theorem SameFor.refl (q : Int) (k : KernelState) : SameFor q k k :=
  ⟨rfl, rfl, rfl, rfl, fun _ _ => rfl⟩

theorem sameFor_of_vmm {vmm : VirtualMemoryManager}
    (hvmm : vmm.addressSpaces.get? q = k.vmm.addressSpaces.get? q ∧
      vmm.pmm.framesOf q = k.vmm.pmm.framesOf q) : SameFor q k { k with vmm := vmm } where
  process := rfl
  space := hvmm.1
  brk := rfl
  frames := hvmm.2
  openFiles := fun _ _ => rfl

theorem sameFor_of_update (hq : q ≠ p) (f : Process → Process) :
    SameFor q k { k with processTable := k.processTable.update p f } where
  process := k.processTable.get_update_of_ne f hq
  space := rfl
  brk := rfl
  frames := rfl
  openFiles := fun _ _ => rfl

theorem sameFor_of_vfs {vfs : VFS Unit TmpFS} {fd : Int}
    (hvfs : VFS.SameExcept fd k.vfs vfs) (hfd : ¬ k.processTable.Holds q fd) :
    SameFor q k { k with vfs := vfs } where
  process := rfl
  space := rfl
  brk := rfl
  frames := rfl
  openFiles := by
    intro other hother
    apply hvfs
    intro heq
    exact hfd (heq ▸ hother)

theorem SameFor.trans {k'' : KernelState} (first : SameFor q k k')
    (second : SameFor q k' k'') : SameFor q k k'' where
  process := second.process.trans first.process
  space := second.space.trans first.space
  brk := second.brk.trans first.brk
  frames := second.frames.trans first.frames
  openFiles := by
    intro fd hfd
    have hfd' : k'.processTable.Holds q fd := by
      unfold ProcessTable.Holds
      rw [first.process]
      exact hfd
    exact (second.openFiles fd hfd').trans (first.openFiles fd hfd)

theorem DescriptorsOk.not_holds (h : k.DescriptorsOk) (hq : q ≠ p) {fd : Int}
    (hfd : k.processTable.Holds p fd) : ¬ k.processTable.Holds q fd :=
  fun hother => hq (h.holds_apart q p fd hother hfd)

theorem sameFor_or_reaped_of_effect (h : Inv k) (he : Effect k p call result k')
    (hq : q ≠ p) (hlive : q ∈ k.processTable.table) :
    SameFor q k k' ∨ ((∃ childPid options, call = .wait4 childPid options) ∧ Reaped p q k k') := by
  cases he with
  | nothing => exact Or.inl (SameFor.refl q k)
  | @read fd size proc hproc hfd =>
      exact Or.inl (sameFor_of_vfs (VFS.read_sameExcept k.vfs fd size)
        (h.descriptors.not_holds hq ⟨proc, hproc, hfd⟩))
  | @write fd data proc hproc hfd =>
      exact Or.inl (sameFor_of_vfs (VFS.write_sameExcept k.vfs fd data)
        (h.descriptors.not_holds hq ⟨proc, hproc, hfd⟩))
  | @openat dirfd path flags ref fs inode _ =>
      -- the new descriptor is above all that `q` holds
      have hfresh : ¬ k.processTable.Holds q k.vfs.nextFd := fun hold =>
        Int.lt_irrefl _ (h.descriptors.holds_lt q k.vfs.nextFd hold)
      have hvfs : VFS.SameExcept k.vfs.nextFd k.vfs
          ((k.vfs.setFs ref fs).addOpenFile path flags ref inode) :=
        fun _ hother => Dict.get?_set_of_ne _ _ hother
      exact Or.inl ((sameFor_of_vfs hvfs hfresh).trans (sameFor_of_update hq _))
  | @close fd proc hproc hfd =>
      have hvfs := sameFor_of_vfs (VFS.close_sameExcept k.vfs fd)
        (h.descriptors.not_holds hq ⟨proc, hproc, hfd⟩)
      exact Or.inl (hvfs.trans (sameFor_of_update hq _))
  | mmap _ _ _ => exact Or.inl (sameFor_of_vmm (k.vmm.mapPages_frame hq _ _ _ _))
  | @munmap addr length =>
      have hframe := k.vmm.unmapPages_frame hq addr
      exact Or.inl (sameFor_of_vmm ⟨hframe.1, by rw [hframe.2]⟩)
  | @brk newBrk _ =>
      have hframe := k.vmm.mapPages_frame hq (k.currentBrk p) (newBrk - k.currentBrk p)
        "rw-".toList "[heap]".toList
      exact Or.inl ⟨rfl, hframe.1, Dict.get?_set_of_ne _ _ hq, hframe.2, fun _ _ => rfl⟩
  | fork _ =>
      have hnew : q ≠ k.processTable.pidAlloc.alloc.1 := by
        intro heq
        exact h.pids.alloc_fresh (heq ▸ hlive)
      refine Or.inl ⟨?_, Dict.get?_set_of_ne _ _ hnew, rfl, rfl, fun _ _ => rfl⟩
      exact (ProcessTable.get_update_of_ne _ _ hnew).trans
        (ProcessTable.get_spawn_of_ne _ _ _ _ _ hnew hq)
  | execve => exact Or.inl (sameFor_of_update hq _)
  | exit => exact Or.inl (sameFor_of_update hq _)
  | @wait4 childPid options parent child hparent hchild hzombie =>
      obtain ⟨proc, hproc, hppid⟩ := h.family.listed p parent hparent child hchild
      by_cases hreaped : q = child
      · subst hreaped
        refine Or.inr ⟨⟨childPid, options, rfl⟩, parent, proc, hparent, hproc, hchild, hppid,
          ?_, ?_⟩
        · simpa [ProcessTable.isZombie, hproc] using hzombie
        · change (k.processTable.remove q).get q = none
          rw [ProcessTable.get_remove hproc, if_pos rfl]
          rfl
      · refine Or.inl ⟨?_, rfl, rfl, rfl, fun _ _ => rfl⟩
        exact ProcessTable.get_remove_of_ne hproc hreaped (hppid ▸ hq)

end Effect

theorem nr_of_decode_wait4 {nr childPid options : Int} {args : List Arg}
    (h : decode nr args = some (.wait4 childPid options)) : nr = 61 := by
  unfold decode at h
  split at h <;> simp_all [Option.bind_eq_some_iff]

/-- In every reachable state, a call of `p` leaves another live process `q` alone; the
one exception is a `wait4` that reaps `q`. -/
theorem dispatch_isolated {k k' : KernelState} {p nr q : Int} {args : List Arg}
    {result : Except FsError Int} (hk : Reachable k)
    (hcall : k.dispatch p nr args = some (result, k')) (hq : q ≠ p)
    (hlive : q ∈ k.processTable.table) :
    SameFor q k k' ∨ (nr = 61 ∧ Reaped p q k k') := by
  have h := reachable_inv hk
  obtain ⟨call, hdecode, heffect⟩ := effect_of_dispatch h hcall
  rcases sameFor_or_reaped_of_effect h heffect hq hlive with hsame | ⟨⟨_, _, rfl⟩, hreaped⟩
  · exact Or.inl hsame
  · exact Or.inr ⟨nr_of_decode_wait4 hdecode, hreaped⟩

/-- The init process forks; the idle process keeps what it has. -/
theorem dispatch_isolated_fork :
    ∃ k', boot.dispatch 2 57 [] = some (.ok 3, k') ∧
      (SameFor 0 boot k' ∨ ((57 : Int) = 61 ∧ Reaped 2 0 boot k')) :=
  have hcall : boot.dispatch 2 57 [] = some (.ok 3, (boot.sysFork 2).2) := rfl
  ⟨_, hcall, dispatch_isolated .boot hcall (by decide) (by decide)⟩

end ComputeKernel.Kernel.KernelState
