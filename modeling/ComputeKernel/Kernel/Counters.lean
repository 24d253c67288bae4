import ComputeKernel.Kernel.Descriptors

/-!
# Two counters for descriptors

A descriptor table has a counter of its own, from which it allocates.  The descriptors that
`openat` enters in the table come from the counter of the open files, and the table's own
counter does not move, so it stays above the entries only while it is ahead of the other.
-/

namespace ComputeKernel.Tasks.FileDescriptorTable

open Lib

theorem mem_alloc {fdt : FileDescriptorTable} {path flags : Str} {fd : Int} :
    fd ∈ (fdt.alloc path flags).2.table ↔ fd = fdt.nextFd ∨ fd ∈ fdt.table :=
  Dict.mem_set

theorem get_alloc_of_not_mem {fdt : FileDescriptorTable} (h : fdt.nextFd ∉ fdt.table)
    (path flags : Str) {fd : Int} {entry : Str × Str} (hfd : fdt.get fd = some entry) :
    (fdt.alloc path flags).2.get fd = some entry := by
  have hne : fd ≠ fdt.nextFd := by
    rintro rfl
    exact h (Dict.mem_of_get? hfd)
  exact (Dict.get?_set_of_ne _ _ hne).trans hfd

theorem close_nextFd (fdt : FileDescriptorTable) (fd : Int) :
    (fdt.close fd).2.nextFd = fdt.nextFd := by
  unfold close
  split
  · rfl
  · rfl

def KeysBelow (fdt : FileDescriptorTable) : Prop :=
  ∀ fd, fd ∈ fdt.table → fd < fdt.nextFd

theorem keysBelow_empty : KeysBelow {} :=
  fun fd hfd => absurd hfd (Dict.not_mem_empty fd)

namespace KeysBelow

variable {fdt : FileDescriptorTable}

theorem not_mem (h : fdt.KeysBelow) : fdt.nextFd ∉ fdt.table := fun hmem =>
  Int.lt_irrefl _ (h _ hmem)

theorem alloc (h : fdt.KeysBelow) (path flags : Str) : (fdt.alloc path flags).2.KeysBelow := by
  intro fd hfd
  change fd < fdt.nextFd + 1
  rcases mem_alloc.mp hfd with rfl | hold
  · omega
  · have := h fd hold
    omega

theorem close (h : fdt.KeysBelow) (fd : Int) : (fdt.close fd).2.KeysBelow := by
  intro other hother
  rw [close_nextFd]
  exact h other (mem_of_mem_close hother)

theorem set_iff (h : fdt.KeysBelow) (fd : Int) (path flags : Str) :
    (fdt.set fd path flags).KeysBelow ↔ fd < fdt.nextFd := by
  constructor
  · intro hset
    exact hset fd (Dict.mem_set.mpr (Or.inl rfl))
  · intro hlt other hother
    rcases Dict.mem_set.mp hother with rfl | hold
    · exact hlt
    · exact h other hold

end KeysBelow

def allocAll (fdt : FileDescriptorTable) (entries : List (Str × Str)) : FileDescriptorTable :=
  entries.foldl (fun fdt entry => (fdt.alloc entry.1 entry.2).2) fdt

theorem KeysBelow.allocAll {fdt : FileDescriptorTable} (h : fdt.KeysBelow)
    (entries : List (Str × Str)) : (fdt.allocAll entries).KeysBelow := by
  induction entries generalizing fdt with
  | nil => exact h
  | cons entry entries ih => exact ih (h.alloc entry.1 entry.2)

theorem allocAll_nextFd (fdt : FileDescriptorTable) (entries : List (Str × Str)) :
    (fdt.allocAll entries).nextFd = fdt.nextFd + entries.length := by
  induction entries generalizing fdt with
  | nil => exact (Int.add_zero _).symm
  | cons entry entries ih =>
      have hrest := ih (fdt.alloc entry.1 entry.2).2
      change ((fdt.alloc entry.1 entry.2).2.allocAll entries).nextFd = _
      change _ = fdt.nextFd + 1 + _ at hrest
      rw [hrest, List.length_cons]
      omega

theorem mem_allocAll {fdt : FileDescriptorTable} {fd : Int} (h : fd ∈ fdt.table)
    (entries : List (Str × Str)) : fd ∈ (fdt.allocAll entries).table := by
  induction entries generalizing fdt with
  | nil => exact h
  | cons entry entries ih => exact ih (mem_alloc.mpr (Or.inr h))

/-- No allocation meets an entry, however many are made, exactly when the counter is above
all entries to begin with: otherwise it comes to the one that is not below it. -/
theorem keysBelow_iff_allocAll (fdt : FileDescriptorTable) :
    fdt.KeysBelow ↔
      ∀ entries, (fdt.allocAll entries).nextFd ∉ (fdt.allocAll entries).table := by
  constructor
  · intro h entries
    exact (h.allocAll entries).not_mem
  · intro hfresh fd hfd
    by_contra hge
    apply hfresh (List.replicate (fd - fdt.nextFd).toNat ([], []))
    have hreached : (fdt.allocAll (List.replicate (fd - fdt.nextFd).toNat ([], []))).nextFd =
        fd := by
      rw [allocAll_nextFd, List.length_replicate]
      omega
    rw [hreached]
    exact mem_allocAll hfd _

end ComputeKernel.Tasks.FileDescriptorTable

namespace ComputeKernel.Kernel

open Lib Lib.Run Fs Memory Tasks Vfs

/-- What works on descriptor tables: their own methods, and the calls of processes. -/
inductive TableCall
  | alloc (pid : Int) (path flags : Str)
  | close (pid fd : Int)
  | syscall (req : Request)

namespace KernelState

def stepTable (k : KernelState) : TableCall → KernelState
  | .alloc pid path flags =>
      { k with
        processTable := k.processTable.update pid fun proc =>
          proc.setFdt (proc.fdt.alloc path flags).2 }
  | .close pid fd =>
      { k with
        processTable := k.processTable.update pid fun proc => proc.setFdt (proc.fdt.close fd).2 }
  | .syscall req => k.step req

def CounterAhead (pid : Int) (k : KernelState) : Prop :=
  ∀ fdt, k.processTable.HasTable pid fdt → fdt.KeysBelow

/-- An allocation in the table of the process returns a number that is not in the table, and
leaves every entry as it is. -/
def AllocFresh (pid : Int) (k : KernelState) (call : TableCall) : Prop :=
  ∀ path flags, call = .alloc pid path flags → ∀ fdt, k.processTable.HasTable pid fdt →
    (fdt.alloc path flags).1 ∉ fdt.table ∧
      ∀ fd entry, fdt.get fd = some entry → (fdt.alloc path flags).2.get fd = some entry

/-- An `openat` of the process that opens a file finds the counter of the table ahead of the
counter of the open files. -/
def OpensBehind (pid : Int) (k : KernelState) (call : TableCall) : Prop :=
  ∀ dirfd path flags, call = .syscall ⟨pid, .openat dirfd path flags⟩ → k.Opens pid path →
    ∀ fdt, k.processTable.HasTable pid fdt → k.vfs.nextFd < fdt.nextFd

variable {k k' : KernelState} {pid : Int}

theorem counterAhead_effect {caller : Int} {call : Syscall} {result : Except FsError Int}
    (h : CounterAhead pid k) (he : Effect k caller call result k')
    (hcall : ∀ dirfd path flags, call = .openat dirfd path flags → caller ≠ pid) :
    CounterAhead pid k' := by
  intro fdt htable
  cases he with
  | openat ref fs inode _ =>
      rcases ProcessTable.hasTable_of_update htable with ⟨-, hold⟩ | ⟨hpid, -⟩
      · exact h fdt hold
      · exact absurd hpid.symm (hcall _ _ _ rfl)
  | close hproc hfd =>
      rcases ProcessTable.hasTable_of_update htable with ⟨-, hold⟩ | ⟨rfl, _, -, rfl⟩
      · exact h fdt hold
      · exact (h _ ⟨_, hproc, rfl⟩).close _
  | fork _ =>
      rcases ProcessTable.hasTable_of_spawn
        (ProcessTable.hasTable_of_update_keep htable fun _ => rfl) with hold | rfl
      · exact h fdt hold
      · exact FileDescriptorTable.keysBelow_empty
  | execve => exact h fdt (ProcessTable.hasTable_of_update_keep htable fun _ => rfl)
  | exit => exact h fdt (ProcessTable.hasTable_of_update_keep htable fun _ => rfl)
  | wait4 _ _ _ => exact h fdt (ProcessTable.hasTable_of_remove htable)
  | _ => exact h fdt htable

theorem hasTable_sysOpenat (hnext : 3 ≤ k.vfs.nextFd) {path : Str} (hopens : k.Opens pid path)
    {fdt : FileDescriptorTable} (htable : k.processTable.HasTable pid fdt) (dirfd : Int)
    (flags : Str) :
    (k.sysOpenat pid dirfd path flags).2.processTable.HasTable pid
      (fdt.set k.vfs.nextFd path flags) := by
  rcases k.sysOpenat_cases pid (by omega) dirfd path flags with
    ⟨hnone, -⟩ | ⟨-, ref, fs, inode, hopen⟩
  · exact absurd hopens hnone
  · obtain ⟨proc, hproc, rfl⟩ := htable
    rw [hopen]
    refine ⟨proc.setFd k.vfs.nextFd path flags, ?_, rfl⟩
    rw [ProcessTable.get_update, hproc, Option.map_some, if_pos rfl]

theorem three_le_nextFd_stepTable (k : KernelState) (call : TableCall) (h : 3 ≤ k.vfs.nextFd) :
    3 ≤ (k.stepTable call).vfs.nextFd := by
  cases call with
  | alloc pid path flags => exact h
  | close pid fd => exact h
  | syscall req =>
      have he := k.perform_effect req.pid (by omega) req.call
      exact Int.le_trans h (nextFd_effect he)

theorem counterAhead_openat (hnext : 3 ≤ k.vfs.nextFd) (h : CounterAhead pid k)
    {dirfd : Int} {path flags : Str}
    (hopens : OpensBehind pid k (.syscall ⟨pid, .openat dirfd path flags⟩)) :
    CounterAhead pid (k.sysOpenat pid dirfd path flags).2 := by
  rcases k.sysOpenat_cases pid (by omega) dirfd path flags with
    ⟨-, r, -, hopen⟩ | ⟨hfound, ref, fs, inode, hopen⟩
  · rw [hopen]
    exact h
  · rw [hopen]
    intro fdt htable
    rcases ProcessTable.hasTable_of_update htable with ⟨hne, -⟩ | ⟨-, proc, hproc, rfl⟩
    · exact absurd rfl hne
    · have hold : k.processTable.HasTable pid proc.fdt := ⟨proc, hproc, rfl⟩
      exact ((h _ hold).set_iff _ _ _).mpr (hopens _ _ _ rfl hfound _ hold)

theorem counterAhead_stepTable (hnext : 3 ≤ k.vfs.nextFd) (h : CounterAhead pid k)
    {call : TableCall} (hcall : OpensBehind pid k call) : CounterAhead pid (k.stepTable call) := by
  cases call with
  | alloc other path flags =>
      intro fdt htable
      rcases ProcessTable.hasTable_of_update htable with ⟨-, hold⟩ | ⟨-, proc, hproc, rfl⟩
      · exact h fdt hold
      · exact (h _ ⟨proc, hproc, rfl⟩).alloc path flags
  | close other fd =>
      intro fdt htable
      rcases ProcessTable.hasTable_of_update htable with ⟨-, hold⟩ | ⟨-, proc, hproc, rfl⟩
      · exact h fdt hold
      · exact (h _ ⟨proc, hproc, rfl⟩).close fd
  | syscall req =>
      obtain ⟨caller, call⟩ := req
      by_cases hopen : ∃ dirfd path flags, call = .openat dirfd path flags ∧ caller = pid
      · obtain ⟨dirfd, path, flags, rfl, rfl⟩ := hopen
        exact counterAhead_openat hnext h hcall
      · apply counterAhead_effect h (k.perform_effect caller (by omega) call)
        intro dirfd path flags hsame hpid
        exact hopen ⟨dirfd, path, flags, hsame, hpid⟩

theorem not_counterAhead_stepTable (hnext : 3 ≤ k.vfs.nextFd) (h : CounterAhead pid k)
    {call : TableCall} (hcall : ¬ OpensBehind pid k call) :
    ¬ CounterAhead pid (k.stepTable call) := by
  intro hafter
  apply hcall
  rintro dirfd path flags rfl hopens fdt htable
  have hentered := hafter _ (hasTable_sysOpenat hnext hopens htable dirfd flags)
  exact ((h fdt htable).set_iff _ _ _).mp hentered

theorem allocFresh_of_counterAhead (h : CounterAhead pid k) (call : TableCall) :
    AllocFresh pid k call := by
  intro path flags _ fdt htable
  have hfresh := (h fdt htable).not_mem
  exact ⟨hfresh, fun fd entry => FileDescriptorTable.get_alloc_of_not_mem hfresh path flags⟩

theorem counterAhead_boot (pid : Int) : CounterAhead pid boot := by
  intro fdt htable fd hfd
  exact absurd (htable.holds hfd) (boot_holds pid fd)

/-- Whatever calls are interleaved, the counter of a process stays above its descriptors and
all its allocations are fresh exactly when each of its `openat` calls finds this counter ahead
of the one of the open files. -/
theorem allocFresh_iff (pid : Int) (calls : List TableCall) :
    Always stepTable (CounterAhead pid) boot calls ∧
        Guarded stepTable (AllocFresh pid) boot calls ↔
      Guarded stepTable (OpensBehind pid) boot calls := by
  apply always_and_guarded_iff (I := fun k => 3 ≤ k.vfs.nextFd) three_le_nextFd_stepTable
  · intro k call hnext hahead hbehind
    exact ⟨counterAhead_stepTable hnext hahead hbehind, allocFresh_of_counterAhead hahead call⟩
  · intro k call hnext hahead hfirst _
    exact not_counterAhead_stepTable hnext hahead hfirst
  · exact inv_boot.descriptors.three_le_nextFd
  · exact counterAhead_boot pid

/-- The first file that is opened has the number that the table allocates first. -/
theorem alloc_overwrites_opened :
    let calls : List TableCall :=
      [.syscall ⟨2, .openat (-100) "/etc/hostname".toList "r".toList⟩,
        .alloc 2 "/etc/version".toList "r".toList]
    let opened := run stepTable boot (calls.take 1)
    ¬ (Always stepTable (CounterAhead 2) boot calls ∧
      Guarded stepTable (AllocFresh 2) boot calls) ∧
    (opened.processTable.get 2).map (fun proc => proc.fdt.get 3) =
      some (some ("/etc/hostname".toList, "r".toList)) ∧
    (opened.processTable.get 2).map (fun proc => (proc.fdt.alloc "/etc/version".toList).1) =
      some 3 ∧
    ((run stepTable boot calls).processTable.get 2).map (fun proc => proc.fdt.get 3) =
      some (some ("/etc/version".toList, "r".toList)) := by
  intro calls opened
  have hheld : (opened.processTable.get 2).map (fun proc => proc.fdt.get 3) =
      some (some ("/etc/hostname".toList, "r".toList)) := by
    decide +kernel
  have hnext : (opened.processTable.get 2).map (fun proc => proc.fdt.nextFd) = some 3 := by
    decide +kernel
  refine ⟨?_, hheld, hnext, by decide +kernel⟩
  rintro ⟨-, -, hfresh, -⟩
  obtain ⟨proc, hproc, hentry⟩ := Option.map_eq_some_iff.mp hheld
  rw [hproc, Option.map_some, Option.some.injEq] at hnext
  apply (hfresh _ _ rfl proc.fdt ⟨proc, hproc, rfl⟩).1
  change proc.fdt.nextFd ∈ proc.fdt.table
  rw [hnext]
  exact Dict.mem_of_get? hentry

end KernelState

end ComputeKernel.Kernel
