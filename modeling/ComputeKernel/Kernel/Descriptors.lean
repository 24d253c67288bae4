import ComputeKernel.Kernel.Run

/-!
# Descriptors over runs

The descriptor tables of the processes agree with the open-file table, descriptors are
handed out in increasing order, and a closed one never comes back.
-/

namespace ComputeKernel.Kernel.KernelState

open Lib Lib.Run Fs Memory Tasks Vfs

/-- What a descriptor table says about a descriptor is what the open-file table says. -/
def TablesAgree (k : KernelState) : Prop :=
  ∀ pid fdt fd path flags, k.processTable.HasTable pid fdt → fdt.get fd = some (path, flags) →
    k.vfs.Opened fd path flags

structure DescInv (k : KernelState) : Prop where
  inv : Inv k
  agree : TablesAgree k
  three_le : ∀ pid fd, k.processTable.Holds pid fd → 3 ≤ fd

structure Retired (fd : Int) (k : KernelState) : Prop where
  three_le : 3 ≤ fd
  lt_nextFd : fd < k.vfs.nextFd
  not_open : fd ∉ k.vfs.openFiles
  not_held : ∀ pid, ¬ k.processTable.Holds pid fd

theorem descInv_boot : DescInv boot where
  inv := inv_boot
  agree := by
    intro pid fdt fd path flags htable hfd
    exact absurd (htable.holds (Dict.mem_of_get? hfd)) (boot_holds pid fd)
  three_le := by
    intro pid fd hfd
    exact absurd hfd (boot_holds pid fd)

/-! ## One call -/

section Effect

variable {k k' : KernelState} {pid : Int} {call : Syscall} {result : Except FsError Int}

theorem DescriptorsOk.lt_of_get (h : k.DescriptorsOk) {other fd : Int}
    {fdt : FileDescriptorTable} {entry : Str × Str} (htable : k.processTable.HasTable other fdt)
    (hfd : fdt.get fd = some entry) : fd < k.vfs.nextFd :=
  h.holds_lt other fd (htable.holds (Dict.mem_of_get? hfd))

theorem TablesAgree.of_keep (h : TablesAgree k)
    (htable : ∀ other fdt, k'.processTable.HasTable other fdt →
      k.processTable.HasTable other fdt ∨ fdt = {})
    (hopen : ∀ fd path flags, k.vfs.Opened fd path flags → k'.vfs.Opened fd path flags) :
    TablesAgree k' := by
  intro other fdt fd path flags hother hfd
  rcases htable other fdt hother with hold | hempty
  · exact hopen fd path flags (h other fdt fd path flags hold hfd)
  · rw [hempty] at hfd
    cases hfd

theorem TablesAgree.openat (h : TablesAgree k) (hfds : k.DescriptorsOk) (path flags : Str)
    (ref : Unit) (fs : TmpFS) (inode : Inode) :
    TablesAgree
      { k with
        vfs := (k.vfs.setFs ref fs).addOpenFile path flags ref inode
        processTable := k.processTable.update pid fun proc =>
          proc.setFd k.vfs.nextFd path flags } := by
  have hold : ∀ other fdt fd path' flags', k.processTable.HasTable other fdt →
      fdt.get fd = some (path', flags') →
      ((k.vfs.setFs ref fs).addOpenFile path flags ref inode).Opened fd path' flags' := by
    intro other fdt fd path' flags' htable hfd
    have hlt := hfds.lt_of_get htable hfd
    apply (h other fdt fd path' flags' htable hfd).of_get?
    apply Dict.get?_set_of_ne
    change fd ≠ k.vfs.nextFd
    omega
  intro other fdt fd path' flags' htable hfd
  rcases ProcessTable.hasTable_of_update htable with ⟨-, htable⟩ | ⟨-, proc, hproc, rfl⟩
  · exact hold other fdt fd path' flags' htable hfd
  · have hset : (proc.fdt.table.set k.vfs.nextFd (path, flags)).get? fd = some (path', flags') :=
      hfd
    rw [Dict.get?_set] at hset
    split at hset
    · rename_i hnew
      cases hset
      rw [hnew]
      exact VFS.opened_addOpenFile _ path flags ref inode
    · exact hold other proc.fdt fd path' flags' ⟨proc, hproc, rfl⟩ hset

theorem TablesAgree.close (h : TablesAgree k) (hfds : k.DescriptorsOk) {fd : Int}
    {proc : Process} (hproc : k.processTable.get pid = some proc) (hfd : fd ∈ proc.fdt.table) :
    TablesAgree
      { k with
        vfs := (k.vfs.close fd).2
        processTable := k.processTable.update pid fun other =>
          other.setFdt (proc.fdt.close fd).2 } := by
  intro other fdt fd' path flags htable hentry
  have hkept : fd' ≠ fd ∧ ∃ old, k.processTable.HasTable other old ∧
      old.get fd' = some (path, flags) := by
    rcases ProcessTable.hasTable_of_update htable with ⟨hne, hold⟩ | ⟨hpid, _, -, rfl⟩
    · refine ⟨?_, fdt, hold, hentry⟩
      rintro rfl
      exact hne (hfds.holds_apart other pid fd' (hold.holds (Dict.mem_of_get? hentry))
        ⟨proc, hproc, hfd⟩)
    · have herase : (proc.fdt.table.erase fd).get? fd' = some (path, flags) := by
        change (proc.fdt.close fd).2.get fd' = some (path, flags) at hentry
        rw [FileDescriptorTable.close_of_mem hfd] at hentry
        exact hentry
      rw [Dict.get?_erase] at herase
      split at herase
      · cases herase
      · rename_i hne
        exact ⟨hne, proc.fdt, ⟨proc, hpid ▸ hproc, rfl⟩, herase⟩
  obtain ⟨hne, old, hold, hentry⟩ := hkept
  have hopen := h other old fd' path flags hold hentry
  exact hopen.of_get? (VFS.close_sameExcept k.vfs fd fd' hne)

theorem tablesAgree_effect (h : TablesAgree k) (hfds : k.DescriptorsOk)
    (he : Effect k pid call result k') : TablesAgree k' := by
  cases he with
  | nothing => exact h
  | read _ _ => exact h.of_keep (fun _ _ => Or.inl) fun _ _ _ hopen => hopen.read _ _
  | write _ _ => exact h.of_keep (fun _ _ => Or.inl) fun _ _ _ hopen => hopen.write _ _
  | openat ref fs inode _ => exact h.openat hfds _ _ ref fs inode
  | close hproc hfd => exact h.close hfds hproc hfd
  | mmap _ _ _ => exact h.of_keep (fun _ _ => Or.inl) fun _ _ _ => id
  | munmap => exact h.of_keep (fun _ _ => Or.inl) fun _ _ _ => id
  | brk _ => exact h.of_keep (fun _ _ => Or.inl) fun _ _ _ => id
  | fork _ =>
      refine h.of_keep ?_ fun _ _ _ => id
      intro other fdt htable
      exact ProcessTable.hasTable_of_spawn
        (ProcessTable.hasTable_of_update_keep htable fun _ => rfl)
  | execve =>
      refine h.of_keep ?_ fun _ _ _ => id
      exact fun _ _ htable => Or.inl (ProcessTable.hasTable_of_update_keep htable fun _ => rfl)
  | exit =>
      refine h.of_keep ?_ fun _ _ _ => id
      exact fun _ _ htable => Or.inl (ProcessTable.hasTable_of_update_keep htable fun _ => rfl)
  | wait4 _ _ _ =>
      refine h.of_keep ?_ fun _ _ _ => id
      exact fun _ _ htable => Or.inl (ProcessTable.hasTable_of_remove htable)

theorem holds_effect (he : Effect k pid call result k') {other fd : Int}
    (hfd : k'.processTable.Holds other fd) :
    k.processTable.Holds other fd ∨ fd = k.vfs.nextFd := by
  cases he with
  | openat ref fs inode _ =>
      rcases ProcessTable.holds_of_update hfd with hold | ⟨-, proc, hproc, hmem⟩
      · exact Or.inl hold
      · rcases Dict.mem_set.mp hmem with hnew | hold
        · exact Or.inr hnew
        · exact Or.inl ⟨proc, hproc, hold⟩
  | close hproc _ =>
      rcases ProcessTable.holds_of_update hfd with hold | ⟨rfl, _, -, hmem⟩
      · exact Or.inl hold
      · exact Or.inl ⟨_, hproc, FileDescriptorTable.mem_of_mem_close hmem⟩
  | fork _ =>
      exact Or.inl (ProcessTable.holds_of_spawn
        (ProcessTable.holds_of_update_keep hfd fun _ => rfl))
  | execve => exact Or.inl (ProcessTable.holds_of_update_keep hfd fun _ => rfl)
  | exit => exact Or.inl (ProcessTable.holds_of_update_keep hfd fun _ => rfl)
  | wait4 _ _ _ => exact Or.inl (ProcessTable.holds_of_remove hfd)
  | nothing => exact Or.inl hfd
  | read _ _ => exact Or.inl hfd
  | write _ _ => exact Or.inl hfd
  | mmap _ _ _ => exact Or.inl hfd
  | munmap => exact Or.inl hfd
  | brk _ => exact Or.inl hfd

theorem nextFd_effect (he : Effect k pid call result k') : k.vfs.nextFd ≤ k'.vfs.nextFd := by
  cases he with
  | read _ _ => exact Int.le_of_eq (VFS.read_nextFd _ _ _).symm
  | write _ _ => exact Int.le_of_eq (VFS.write_nextFd _ _ _).symm
  | openat ref fs inode _ =>
      change k.vfs.nextFd ≤ k.vfs.nextFd + 1
      omega
  | close _ _ => exact Int.le_of_eq (VFS.close_nextFd _ _).symm
  | _ => exact Int.le_refl _

theorem mem_openFiles_effect (he : Effect k pid call result k') {fd : Int}
    (hfd : fd ∈ k'.vfs.openFiles) : fd ∈ k.vfs.openFiles ∨ fd = k.vfs.nextFd := by
  cases he with
  | read _ _ => exact Or.inl ((VFS.mem_openFiles_read _ _ _ _).mp hfd)
  | write _ _ => exact Or.inl ((VFS.mem_openFiles_write _ _ _ _).mp hfd)
  | openat ref fs inode _ => exact (Dict.mem_set.mp hfd).symm
  | close _ _ => exact Or.inl ((VFS.mem_openFiles_close _ _ _).mp hfd).2
  | _ => exact Or.inl hfd

theorem retired_effect {fd : Int} (h : Retired fd k) (he : Effect k pid call result k') :
    Retired fd k' where
  three_le := h.three_le
  lt_nextFd := Int.lt_of_lt_of_le h.lt_nextFd (nextFd_effect he)
  not_open := by
    intro hopen
    have hlt := h.lt_nextFd
    rcases mem_openFiles_effect he hopen with hold | hnew
    · exact h.not_open hold
    · omega
  not_held := by
    intro other hheld
    have hlt := h.lt_nextFd
    rcases holds_effect he hheld with hold | hnew
    · exact h.not_held other hold
    · omega

end Effect

theorem descInv_step (k : KernelState) (req : Request) (h : DescInv k) :
    DescInv (k.step req) where
  inv := inv_step k req h.inv
  agree := tablesAgree_effect h.agree h.inv.descriptors (effect_step h.inv req)
  three_le := by
    intro pid fd hfd
    rcases holds_effect (effect_step h.inv req) hfd with hold | hnew
    · exact h.three_le pid fd hold
    · rw [hnew]
      exact h.inv.descriptors.three_le_nextFd

/-! ## Opening and closing -/

theorem nextFd_of_openat {k : KernelState} (h : Inv k) {pid dirfd fd : Int} {path flags : Str}
    (hanswer : k.answer ⟨pid, .openat dirfd path flags⟩ = .ok fd) (hfd : 0 ≤ fd) :
    fd = k.vfs.nextFd ∧ (k.step ⟨pid, .openat dirfd path flags⟩).vfs.nextFd = fd + 1 := by
  change (k.sysOpenat pid dirfd path flags).1 = .ok fd at hanswer
  change _ ∧ (k.sysOpenat pid dirfd path flags).2.vfs.nextFd = fd + 1
  have hthree := h.descriptors.three_le_nextFd
  rcases k.sysOpenat_cases pid (by omega) dirfd path flags with
    ⟨-, r, hr, hopen⟩ | ⟨-, ref, fs, inode, hopen⟩
  · rw [hopen] at hanswer
    have hsame := Except.ok.inj hanswer
    have hneg := neg_of_mem_errorCodes hr
    omega
  · rw [hopen] at hanswer ⊢
    have hnext := Except.ok.inj hanswer
    refine ⟨hnext.symm, ?_⟩
    rw [← hnext]
    rfl

theorem retired_of_close {k : KernelState} (h : DescInv k) {pid fd : Int}
    (hclose : k.answer ⟨pid, .close fd⟩ = .ok 0) : Retired fd (k.step ⟨pid, .close fd⟩) := by
  change Retired fd (k.sysClose pid fd).2
  have hresult : (k.sysClose pid fd).1 = 0 := Except.ok.inj hclose
  unfold sysClose at hresult ⊢
  cases hproc : k.processTable.get pid with
  | none =>
      simp only [hproc] at hresult
      cases hresult
  | some proc =>
      by_cases hfd : fd ∈ proc.fdt.table
      · simp only [FileDescriptorTable.close_of_mem hfd]
        have hheld : k.processTable.Holds pid fd := ⟨proc, hproc, hfd⟩
        refine ⟨h.three_le pid fd hheld, ?_, ?_, ?_⟩
        · change fd < (k.vfs.close fd).2.nextFd
          rw [VFS.close_nextFd]
          exact h.inv.descriptors.holds_lt pid fd hheld
        · intro hopen
          exact ((VFS.mem_openFiles_close k.vfs fd fd).mp hopen).1 rfl
        · intro other hother
          obtain ⟨fdt, htable, hmem⟩ := hother.hasTable
          rcases ProcessTable.hasTable_of_update htable with ⟨hne, hold⟩ | ⟨-, _, -, rfl⟩
          · exact hne (h.inv.descriptors.holds_apart other pid fd (hold.holds hmem) hheld)
          · exact (Dict.mem_erase.mp hmem).1 rfl
      · simp only [hproc, FileDescriptorTable.close_of_not_mem hfd] at hresult
        cases hresult

def Uses (fd : Int) : Syscall → Prop
  | .read fd' _ => fd' = fd
  | .write fd' _ => fd' = fd
  | .close fd' => fd' = fd
  | _ => False

theorem perform_of_retired {k : KernelState} {fd : Int} (h : Retired fd k) (pid : Int)
    {call : Syscall} (hcall : Uses fd call) :
    k.perform pid call =
      (.ok (if pid ∈ k.processTable.table then -EBADF else -EINVAL), k) := by
  cases hproc : k.processTable.get pid with
  | none =>
      have hdead : pid ∉ k.processTable.table := Dict.get?_eq_none.mp hproc
      rw [if_neg hdead]
      cases call with
      | read fd' size => simp [perform, perform.returned, sysRead, hproc]
      | write fd' data => simp [perform, perform.returned, sysWrite, hproc]
      | close fd' => simp [perform, perform.returned, sysClose, hproc]
      | _ => cases hcall
  | some proc =>
      have hlive : pid ∈ k.processTable.table := ProcessTable.mem_table_iff.mpr ⟨proc, hproc⟩
      have hmem : fd ∉ proc.fdt.table := fun hmem => h.not_held pid ⟨proc, hproc, hmem⟩
      have hnone : proc.fdt.get fd = none := Dict.get?_eq_none.mpr hmem
      have hthree := h.three_le
      rw [if_pos hlive]
      cases call with
      | read fd' size =>
          obtain rfl : fd' = fd := hcall
          simp [perform, perform.returned, sysRead, hproc, hnone]
      | write fd' data =>
          obtain rfl : fd' = fd := hcall
          have hlog : ¬ (fd' = 1 ∨ fd' = 2) := by omega
          simp [perform, perform.returned, sysWrite, hproc, hlog, hnone]
      | close fd' =>
          obtain rfl : fd' = fd := hcall
          simp [perform, perform.returned, sysClose, hproc,
            FileDescriptorTable.close_of_not_mem hmem]
      | _ => cases hcall

/-! ## Runs -/

theorem descInv_run (reqs : List Request) : DescInv (run step boot reqs) :=
  run_invariant descInv_step descInv_boot reqs

theorem nextFd_run {k : KernelState} (h : Inv k) (reqs : List Request) :
    k.vfs.nextFd ≤ (run step k reqs).vfs.nextFd := by
  apply run_keeps (P := fun k' => k.vfs.nextFd ≤ k'.vfs.nextFd) inv_step _ h (Int.le_refl _)
  intro k' req h' hle
  exact Int.le_trans hle (nextFd_effect (effect_step h' req))

theorem retired_run {k : KernelState} {fd : Int} (h : Inv k) (hfd : Retired fd k)
    (reqs : List Request) : Retired fd (run step k reqs) := by
  apply run_keeps inv_step _ h hfd
  intro k' req h' hretired
  exact retired_effect hretired (effect_step h' req)

/-- In every run, descriptor tables agree with the open-file table and share no
descriptor, `openat` returns larger and larger descriptors, and a closed one is never
held again: for a live caller its use is a bad descriptor from then on. -/
theorem descriptors_run (reqs : List Request) :
    let k := run step boot reqs
    TablesAgree k ∧
    (∀ pid other fd, k.processTable.Holds pid fd → k.processTable.Holds other fd →
      pid = other) ∧
    (∀ pid dirfd path flags fd, k.answer ⟨pid, .openat dirfd path flags⟩ = .ok fd → 0 ≤ fd →
      ∀ more pid' dirfd' path' flags' fd',
        (run step (k.step ⟨pid, .openat dirfd path flags⟩) more).answer
          ⟨pid', .openat dirfd' path' flags'⟩ = .ok fd' → 0 ≤ fd' → fd < fd') ∧
    (∀ pid fd, k.answer ⟨pid, .close fd⟩ = .ok 0 →
      ∀ more, let k' := run step (k.step ⟨pid, .close fd⟩) more
        (∀ other, ¬ k'.processTable.Holds other fd) ∧
        ∀ other call, Uses fd call → k'.perform other call =
          (.ok (if other ∈ k'.processTable.table then -EBADF else -EINVAL), k')) := by
  intro k
  have h : DescInv k := descInv_run reqs
  refine ⟨h.agree, h.inv.descriptors.holds_apart, ?_, ?_⟩
  · intro pid dirfd path flags fd hfirst hfd more pid' dirfd' path' flags' fd' hsecond hfd'
    have hstep := inv_step k ⟨pid, .openat dirfd path flags⟩ h.inv
    have hnext := (nextFd_of_openat h.inv hfirst hfd).2
    have hlater := (nextFd_of_openat (run_invariant inv_step hstep more) hsecond hfd').1
    have hle := nextFd_run hstep more
    omega
  · intro pid fd hclose more k'
    have hretired : Retired fd k' :=
      retired_run (inv_step k _ h.inv) (retired_of_close h hclose) more
    refine ⟨hretired.not_held, ?_⟩
    intro other call hcall
    exact perform_of_retired hretired other hcall

theorem reaped_reads_closed :
    let opened := run step boot
      [⟨2, .fork⟩, ⟨3, .openat (-100) "/etc/hostname".toList "r".toList⟩]
    opened.answer ⟨3, .close 3⟩ = .ok 0 ∧
    (run step opened [⟨3, .close 3⟩, ⟨3, .exit 0⟩, ⟨2, .wait4 (-1) 0⟩]).answer
      ⟨3, .read 3 16⟩ = .ok (-EINVAL) ∧ -EINVAL ≠ -EBADF := by
  intro opened
  refine ⟨by decide +kernel, by decide +kernel, by decide⟩

end ComputeKernel.Kernel.KernelState
