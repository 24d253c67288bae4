import ComputeKernel.Kernel.Idle
import ComputeKernel.Kernel.System

/-!
# The kernel does what it is for

The tables of the kernel mirror the abstract system, one part for each of its fields, and every
call keeps this and is answered as the system says.
-/

namespace ComputeKernel.Kernel.KernelState

open Lib Lib.Run Fs Memory Tasks Vfs VirtualMemoryManager

def startsOf (space : AddressSpace) (addr : Int) : Prop :=
  ∃ area ∈ space.areas, area.start = addr

structure Mirrors (k : KernelState) (s : System) : Prop where
  files : VFS.Represents k.vfs s.files
  owner : ∀ pid fd, s.owner fd = some pid ↔ k.processTable.Holds pid fd
  phase : ∀ pid, s.phase pid = k.phase pid
  children : ∀ pid, s.children pid = k.childrenOf pid
  pids : s.pids = k.processTable.pidAlloc
  starts : ∀ pid, s.starts pid = (k.vmm.addressSpaces.get? pid).map startsOf
  free : s.free = k.vmm.pmm.freePages
  brk : ∀ pid, s.brk pid = k.currentBrk pid

/-- What a call should do: the same answer, and tables that mirror the system after it. -/
def Follows (result : Int × KernelState) (expected : Int × System) : Prop :=
  result.1 = expected.1 ∧ Mirrors result.2 expected.2

/-! ## Descriptors -/

theorem holds_update_iff (pt : ProcessTable) (updated : Int) (f : Process → Process)
    (pid fd : Int) :
    (pt.update updated f).Holds pid fd ↔ ∃ proc, pt.get pid = some proc ∧
      fd ∈ (if pid = updated then f proc else proc).fdt.table := by
  unfold ProcessTable.Holds
  rw [ProcessTable.get_update]
  cases pt.get pid with
  | none => simp
  | some proc => simp

theorem holds_update_keep {pt : ProcessTable} {updated : Int} {f : Process → Process}
    (hf : ∀ proc, (f proc).fdt = proc.fdt) (pid fd : Int) :
    (pt.update updated f).Holds pid fd ↔ pt.Holds pid fd := by
  rw [holds_update_iff]
  refine exists_congr fun proc => and_congr_right fun _ => ?_
  split
  · rw [hf]
  · rfl

theorem holds_remove_iff {pt : ProcessTable} {child : Int} {gone : Process}
    (hgone : pt.get child = some gone) (pid fd : Int) :
    (pt.remove child).Holds pid fd ↔ pid ≠ child ∧ pt.Holds pid fd := by
  constructor
  · intro h
    refine ⟨?_, ProcessTable.holds_of_remove h⟩
    rintro rfl
    obtain ⟨proc, hproc, -⟩ := h
    rw [ProcessTable.get_remove hgone, if_pos rfl] at hproc
    cases hproc
  · rintro ⟨hne, proc, hproc, hfd⟩
    refine ⟨if pid = gone.ppid then proc.removeChild child else proc, ?_, ?_⟩
    · rw [ProcessTable.get_remove hgone, if_neg hne, hproc, Option.map_some]
    · split
      · exact hfd
      · exact hfd

theorem holds_spawn_iff {pt : ProcessTable} (h : pt.PidsOk) (name : Str) (ppid uid gid : Int)
    (cmdline : Str) (pid fd : Int) :
    (pt.spawn name ppid uid gid cmdline).2.Holds pid fd ↔ pt.Holds pid fd := by
  refine ⟨ProcessTable.holds_of_spawn, ?_⟩
  rintro ⟨proc, hproc, hfd⟩
  have hne : pid ≠ pt.pidAlloc.alloc.1 := by
    rintro rfl
    rw [h.get_alloc] at hproc
    cases hproc
  refine ⟨if pid = ppid then proc.addChild pt.pidAlloc.alloc.1 else proc, ?_, ?_⟩
  · rw [ProcessTable.get_spawn, if_neg hne, hproc, Option.map_some]
  · split
    · exact hfd
    · exact hfd

/-! ## Mapped addresses -/

theorem startsOf_map (space : AddressSpace) (start size : Int) (flags name : Str) :
    startsOf (space.map start size flags name) =
      fun addr => startsOf space addr ∨ addr = start := by
  funext addr
  apply propext
  simp only [startsOf, AddressSpace.map, List.mem_append, List.mem_singleton]
  constructor
  · rintro ⟨area, harea | rfl, rfl⟩
    · exact Or.inl ⟨area, harea, rfl⟩
    · exact Or.inr rfl
  · rintro (⟨area, harea, rfl⟩ | rfl)
    · exact ⟨area, Or.inl harea, rfl⟩
    · exact ⟨_, Or.inr rfl, rfl⟩

theorem startsOf_unmap (space : AddressSpace) (start : Int) :
    startsOf (space.unmap start).2 = fun addr => startsOf space addr ∧ addr ≠ start := by
  funext addr
  apply propext
  simp only [startsOf, AddressSpace.unmap, List.mem_filter, decide_eq_true_eq]
  constructor
  · rintro ⟨area, ⟨harea, hne⟩, rfl⟩
    exact ⟨⟨area, harea, rfl⟩, hne⟩
  · rintro ⟨⟨area, harea, rfl⟩, hne⟩
    exact ⟨area, ⟨harea, hne⟩, rfl⟩

theorem unmap_fst_iff (space : AddressSpace) (start : Int) :
    (space.unmap start).1 = true ↔ startsOf space start := by
  simp only [AddressSpace.unmap, startsOf, decide_eq_true_eq,
    List.length_filter_lt_length_iff_exists, not_not]

theorem startsOf_newAddressSpace (pid : Int) :
    startsOf (newAddressSpace pid) =
      fun addr => addr ∈ ([0x400000, 0x600000, 0x00007fff00000000] : List Int) := by
  funext addr
  apply propext
  simp only [startsOf, newAddressSpace, AddressSpace.map, List.nil_append, List.cons_append,
    List.mem_cons, List.not_mem_nil, or_false, exists_eq_or_imp, exists_eq_left,
    eq_comm (a := addr)]

namespace Mirrors

variable {k : KernelState} {s : System}

theorem absent_iff (h : Mirrors k s) {pid : Int} :
    s.phase pid = .absent ↔ k.processTable.get pid = none := by
  rw [h.phase pid]
  unfold KernelState.phase phaseOf
  cases k.processTable.get pid with
  | none => simp
  | some proc =>
      dsimp only
      split
      · simp
      · simp

theorem absent_of_none (h : Mirrors k s) {pid : Int} (hproc : k.processTable.get pid = none) :
    s.phase pid = .absent :=
  h.absent_iff.mpr hproc

theorem not_absent (h : Mirrors k s) {pid : Int} {proc : Process}
    (hproc : k.processTable.get pid = some proc) : ¬ s.phase pid = .absent := by
  intro habsent
  rw [h.absent_iff, hproc] at habsent
  cases habsent

theorem owns_iff (h : Mirrors k s) {pid fd : Int} {proc : Process}
    (hproc : k.processTable.get pid = some proc) :
    s.owner fd = some pid ↔ fd ∈ proc.fdt.table := by
  rw [h.owner]
  constructor
  · rintro ⟨other, hother, hfd⟩
    rw [hproc] at hother
    cases hother
    exact hfd
  · exact fun hfd => ⟨proc, hproc, hfd⟩

/-! ## Files -/

theorem of_vfs (h : Mirrors k s) {vfs : VFS Unit TmpFS} {files : FileStore}
    (hfiles : VFS.Represents vfs files) :
    Mirrors { k with vfs := vfs } { s with files := files } :=
  { h with files := hfiles }

theorem sysRead (h : Mirrors k s) (pid fd size : Int) :
    Follows (k.sysRead pid fd size) (s.read pid fd size) := by
  unfold KernelState.sysRead System.read
  cases hproc : k.processTable.get pid with
  | none =>
      rw [if_pos (h.absent_of_none hproc)]
      exact ⟨rfl, h⟩
  | some proc =>
      rw [if_neg (h.not_absent hproc)]
      dsimp only
      cases hfd : proc.fdt.get fd with
      | none =>
          have hnot : ¬ s.owner fd = some pid := by
            rw [h.owns_iff hproc]
            exact Dict.get?_eq_none.mp hfd
          rw [if_neg hnot]
          exact ⟨rfl, h⟩
      | some entry =>
          rw [if_pos ((h.owns_iff hproc).mpr (Dict.mem_of_get? hfd))]
          obtain ⟨hreply, hafter⟩ := h.files.read fd size
          refine ⟨?_, h.of_vfs hafter⟩
          dsimp only
          rw [← hreply]
          rfl

theorem sysWrite (h : Mirrors k s) (pid fd : Int) (data : Bytes) :
    Follows (k.sysWrite pid fd data) (s.write pid fd data) := by
  unfold KernelState.sysWrite System.write
  cases hproc : k.processTable.get pid with
  | none =>
      rw [if_pos (h.absent_of_none hproc)]
      exact ⟨rfl, h⟩
  | some proc =>
      rw [if_neg (h.not_absent hproc)]
      dsimp only
      split
      · exact ⟨rfl, h⟩
      · cases hfd : proc.fdt.get fd with
        | none =>
            have hnot : ¬ s.owner fd = some pid := by
              rw [h.owns_iff hproc]
              exact Dict.get?_eq_none.mp hfd
            rw [if_neg hnot]
            exact ⟨rfl, h⟩
        | some entry =>
            rw [if_pos ((h.owns_iff hproc).mpr (Dict.mem_of_get? hfd))]
            obtain ⟨hreply, hafter⟩ := h.files.write fd data
            refine ⟨?_, h.of_vfs hafter⟩
            dsimp only
            rw [← hreply]
            rfl

theorem of_fdt (h : Mirrors k s) {vfs : VFS Unit TmpFS} {files : FileStore}
    (hfiles : VFS.Represents vfs files) {pid : Int} {f : Process → Process}
    (hphase : ∀ proc, phaseOf (f proc) = phaseOf proc)
    (hchildren : ∀ proc, (f proc).children = proc.children) {owner : Int → Option Int}
    (hown : ∀ fd, owner fd = some pid ↔ ∃ proc, k.processTable.get pid = some proc ∧
      fd ∈ (f proc).fdt.table)
    (hothers : ∀ other, other ≠ pid → ∀ fd,
      owner fd = some other ↔ k.processTable.Holds other fd) :
    Mirrors { k with vfs := vfs, processTable := k.processTable.update pid f }
      { s with files := files, owner := owner } :=
  { h with
    files := hfiles
    owner := by
      intro other fd
      rw [holds_update_iff]
      by_cases hother : other = pid
      · subst hother
        rw [hown]
        simp only [if_true]
      · rw [hothers other hother]
        simp only [if_neg hother]
        rfl
    phase := fun other => (h.phase other).trans (phase_update rfl hphase other).symm
    children := fun other => (h.children other).trans (childrenOf_update rfl hchildren).symm }

theorem openat_of_reply {s : System} {pid : Int} {path flags : Str} {fd : Int} {files : FileStore}
    (hlive : ¬ s.phase pid = .absent) (hpath : path ≠ [])
    (hopen : s.files.open_ path flags = (.count fd, files)) :
    s.openat pid path flags =
      if fd < 0 then (fd, { s with files := files })
      else (fd, { s with files := files, owner := Function.update s.owner fd (some pid) }) := by
  unfold System.openat
  rw [if_neg (not_or.mpr ⟨hlive, hpath⟩), hopen]
  rfl

theorem sysOpenat (hk : k.DescriptorsOk) (h : Mirrors k s) (pid dirfd : Int) (path flags : Str) :
    ∃ fd, (k.sysOpenat pid dirfd path flags).1 = .ok fd ∧
      Follows (fd, (k.sysOpenat pid dirfd path flags).2) (s.openat pid path flags) := by
  by_cases hfail : s.phase pid = .absent ∨ path = []
  · have hsame : k.sysOpenat pid dirfd path flags = (.ok (-EINVAL), k) := by
      unfold KernelState.sysOpenat
      cases hproc : k.processTable.get pid with
      | none => rfl
      | some proc => exact if_pos (hfail.resolve_left (h.not_absent hproc))
    unfold System.openat
    rw [hsame, if_pos hfail]
    exact ⟨_, rfl, rfl, h⟩
  · obtain ⟨hlive, hpath⟩ := not_or.mp hfail
    obtain ⟨proc, hproc⟩ : ∃ proc, k.processTable.get pid = some proc :=
      Option.ne_none_iff_exists'.mp fun hnone => hlive (h.absent_of_none hnone)
    obtain ⟨hreply, hafter⟩ := h.files.open_ path flags
    unfold KernelState.sysOpenat
    rw [hproc]
    dsimp only
    rw [if_neg hpath]
    have hspec : ∀ fd vfs, k.vfs.open_ path flags = (.ok fd, vfs) → ∃ files,
        s.files.open_ path flags = (.count fd, files) ∧ VFS.Represents vfs files := by
      intro fd vfs hopen
      rw [hopen] at hreply hafter
      exact ⟨_, Prod.ext hreply.symm rfl, hafter⟩
    rcases k.vfs.open_cases path flags with ⟨-, hopen⟩ | ⟨-, ref, fs, inode, hopen⟩
    · obtain ⟨files, hfiles, hrepresents⟩ := hspec _ _ hopen
      rw [hopen, openat_of_reply hlive hpath hfiles]
      exact ⟨_, rfl, rfl, h.of_vfs hrepresents⟩
    · obtain ⟨files, hfiles, hrepresents⟩ := hspec _ _ hopen
      have hfd : ¬ k.vfs.nextFd < 0 := by
        have := hk.three_le_nextFd
        omega
      rw [hopen, openat_of_reply hlive hpath hfiles, if_neg hfd]
      dsimp only
      rw [if_neg hfd]
      refine ⟨_, rfl, rfl, h.of_fdt hrepresents
        (f := fun proc => proc.setFd k.vfs.nextFd path flags) (fun _ => rfl) (fun _ => rfl) ?_ ?_⟩
      · intro fd'
        rw [hproc]
        have hmem : fd' ∈ (proc.setFd k.vfs.nextFd path flags).fdt.table ↔
            fd' = k.vfs.nextFd ∨ fd' ∈ proc.fdt.table := Dict.mem_set
        simp only [Option.some.injEq, exists_eq_left', hmem]
        by_cases hnew : fd' = k.vfs.nextFd
        · simp [hnew]
        · rw [Function.update_of_ne hnew, h.owns_iff hproc]
          exact (or_iff_right hnew).symm
      · intro other hother fd'
        by_cases hnew : fd' = k.vfs.nextFd
        · rw [hnew, Function.update_self]
          refine iff_of_false (fun heq => hother (Option.some.inj heq).symm) fun hholds => ?_
          exact Int.lt_irrefl _ (hk.holds_lt other _ hholds)
        · rw [Function.update_of_ne hnew]
          exact h.owner other fd'

theorem sysClose (hk : k.DescriptorsOk) (h : Mirrors k s) (pid fd : Int) :
    Follows (k.sysClose pid fd) (s.close pid fd) := by
  unfold KernelState.sysClose System.close
  cases hproc : k.processTable.get pid with
  | none =>
      rw [if_pos (h.absent_of_none hproc)]
      exact ⟨rfl, h⟩
  | some proc =>
      rw [if_neg (h.not_absent hproc)]
      dsimp only
      by_cases hfd : fd ∈ proc.fdt.table
      · rw [if_pos ((h.owns_iff hproc).mpr hfd), FileDescriptorTable.close_of_mem hfd]
        refine ⟨rfl, h.of_fdt (h.files.close fd).2
          (f := fun other => other.setFdt { proc.fdt with table := proc.fdt.table.erase fd })
          (fun _ => rfl) (fun _ => rfl) ?_ ?_⟩
        · intro fd'
          rw [hproc]
          simp only [Option.some.injEq, exists_eq_left', Process.setFdt, Dict.mem_erase]
          by_cases hgone : fd' = fd
          · simp [hgone]
          · rw [Function.update_of_ne hgone, h.owns_iff hproc]
            exact (and_iff_right hgone).symm
        · intro other hother fd'
          by_cases hgone : fd' = fd
          · rw [hgone, Function.update_self]
            refine iff_of_false (Option.some_ne_none other).symm fun hholds => ?_
            exact hk.not_holds hother ⟨proc, hproc, hfd⟩ hholds
          · rw [Function.update_of_ne hgone]
            exact h.owner other fd'
      · rw [if_neg fun howner => hfd ((h.owns_iff hproc).mp howner),
          FileDescriptorTable.close_of_not_mem hfd]
        exact ⟨rfl, h⟩

/-! ## Memory -/

theorem enter (h : Mirrors k s) {pid size : Int} {space : AddressSpace}
    (hspace : k.vmm.addressSpaces.get? pid = some space) (hsize : 0 < size)
    (hfits : framesFor size ≤ k.vmm.pmm.freePages) (vaddr : Int) (flags name : Str) :
    Mirrors { k with vmm := (k.vmm.mapPages pid vaddr size flags name).2 }
      (s.enter pid vaddr (framesFor size)) := by
  rw [mapPages_of_le hspace hsize hfits]
  refine { h with starts := fun other => ?_, free := ?_ }
  · change Function.update s.starts pid _ other = ((k.vmm.addressSpaces.set pid _).get? other).map _
    by_cases hother : other = pid
    · subst hother
      rw [Function.update_self, Dict.get?_set_self, h.starts, hspace, Option.map_some,
        Option.map_some, Option.map_some, startsOf_map]
    · rw [Function.update_of_ne hother, Dict.get?_set_of_ne _ _ hother]
      exact h.starts other
  · have hafter := k.vmm.pmm.freePages_assign_front hfits pid
    change s.free - framesFor size = _
    rw [h.free, ← hafter]
    exact Nat.add_sub_cancel _ _

theorem sysMmap (hspaces : ∀ pid ∈ k.processTable.table, pid ∈ k.vmm.addressSpaces)
    (h : Mirrors k s) (pid addr length : Int) (flags name : Str) :
    Follows (k.sysMmap pid addr length flags name) (s.mmap pid addr length) := by
  unfold KernelState.sysMmap System.mmap
  by_cases hlength : length ≤ 0
  · rw [if_pos hlength, if_pos (Or.inl hlength)]
    exact ⟨rfl, h⟩
  · rw [if_neg hlength]
    cases hproc : k.processTable.get pid with
    | none =>
        rw [if_pos (Or.inr (h.absent_of_none hproc))]
        exact ⟨rfl, h⟩
    | some proc =>
        rw [if_neg (not_or.mpr ⟨hlength, h.not_absent hproc⟩), h.free]
        dsimp only
        obtain ⟨space, hspace⟩ := Dict.mem_iff_exists.mp (hspaces pid (Dict.mem_of_get? hproc))
        by_cases hfits : framesFor length ≤ k.vmm.pmm.freePages
        · have henter := h.enter hspace (Int.not_le.mp hlength) hfits (mmapAddr addr) flags name
          rw [mapPages_of_le hspace (Int.not_le.mp hlength) hfits] at henter ⊢
          rw [if_pos hfits]
          exact ⟨rfl, henter⟩
        · rw [mapPages_of_lt (Nat.lt_of_not_le hfits), if_neg hfits]
          exact ⟨rfl, h⟩

theorem starts_iff (h : Mirrors k s) {pid addr : Int} :
    s.Starts pid addr ↔ (k.vmm.unmapPages pid addr).1 = true := by
  unfold System.Starts unmapPages
  rw [h.starts]
  cases k.vmm.addressSpaces.get? pid with
  | none => simp
  | some space =>
      rw [Option.map_some]
      simp only [Option.some.injEq, exists_eq_left', unmap_fst_iff]

theorem sysMunmap (h : Mirrors k s) (pid addr length : Int) :
    Follows (k.sysMunmap pid addr length) (s.munmap pid addr) := by
  unfold KernelState.sysMunmap System.munmap
  by_cases haddr : addr = 0
  · rw [if_pos haddr, if_neg fun hyes => hyes.1 haddr]
    exact ⟨rfl, h⟩
  · rw [if_neg haddr]
    dsimp only
    cases hunmap : (k.vmm.unmapPages pid addr).1 with
    | false =>
        have hnot : ¬ s.Starts pid addr := by
          rw [h.starts_iff, hunmap]
          exact Bool.false_ne_true
        rw [if_neg Bool.false_ne_true, if_neg (hnot ·.2), unmapPages_of_false hunmap]
        exact ⟨rfl, h⟩
    | true =>
        rw [if_pos (Eq.refl true), if_pos ⟨haddr, h.starts_iff.mpr hunmap⟩]
        refine ⟨rfl, { h with starts := fun other => ?_, free := ?_ }⟩
        · change Function.update s.starts pid _ other = _
          by_cases hother : other = pid
          · subst hother
            rw [Function.update_self, h.starts]
            cases hspace : k.vmm.addressSpaces.get? other with
            | none =>
                unfold unmapPages
                rw [hspace]
                exact congrArg (Option.map startsOf) hspace.symm
            | some space =>
                rw [get?_unmapPages_self hspace, Option.map_some, Option.map_some,
                  Option.map_some, startsOf_unmap]
          · rw [Function.update_of_ne hother, (unmapPages_frame k.vmm hother addr).1]
            exact h.starts other
        · change s.free = (k.vmm.unmapPages pid addr).2.pmm.freePages
          rw [unmapPages_pmm]
          exact h.free

theorem sysBrk (hinitial : ∀ pid brk, k.brk.get? pid = some brk → initialBrk ≤ brk)
    (h : Mirrors k s) (pid newBrk : Int) :
    Follows (k.sysBrk pid newBrk) (s.setBrk pid newBrk) := by
  have hcurrent := initialBrk_le_currentBrk hinitial pid
  have hpos : 0 < initialBrk := by decide
  unfold KernelState.sysBrk System.setBrk
  dsimp only
  rw [h.brk]
  by_cases hsame : newBrk ≤ k.currentBrk pid
  · rw [if_pos (Or.inr hsame), if_pos hsame]
    exact ⟨rfl, h⟩
  · have hgrow := Int.not_le.mp hsame
    rw [if_neg (by omega), if_neg hsame]
    refine ⟨rfl, ?_⟩
    have hgrown : Mirrors { k with vmm := (k.vmm.mapPages pid (k.currentBrk pid)
        (newBrk - k.currentBrk pid) "rw-".toList "[heap]".toList).2 }
        (if (s.starts pid).isSome ∧ framesFor (newBrk - k.currentBrk pid) ≤ s.free then
          s.enter pid (k.currentBrk pid) (framesFor (newBrk - k.currentBrk pid)) else s) := by
      rw [h.starts, h.free]
      cases hspace : k.vmm.addressSpaces.get? pid with
      | none =>
          rw [if_neg fun hyes => Bool.false_ne_true hyes.1]
          unfold mapPages
          rw [hspace]
          exact h
      | some space =>
          by_cases hfits : framesFor (newBrk - k.currentBrk pid) ≤ k.vmm.pmm.freePages
          · rw [if_pos ⟨rfl, hfits⟩]
            exact h.enter hspace (Int.sub_pos.mpr hgrow) hfits _ _ _
          · rw [if_neg fun hyes => hfits hyes.2, mapPages_of_lt (Nat.lt_of_not_le hfits)]
            exact h
    refine { hgrown with brk := fun other => ?_ }
    change Function.update s.brk pid newBrk other =
      ((k.brk.set pid newBrk).get? other).getD initialBrk
    rw [Dict.get?_set]
    by_cases hother : other = pid
    · subst hother
      rw [Function.update_self, if_pos rfl]
      rfl
    · rw [Function.update_of_ne hother, if_neg hother]
      exact h.brk other

/-! ## Processes -/

theorem fork_of_present {s : System} {pid : Int} (h : ¬ s.phase pid = .absent) :
    s.fork pid = (s.pids.alloc.1,
      { s with
        phase := Function.update s.phase s.pids.alloc.1 (.live pid)
        children := Function.update s.children pid (s.children pid ++ [s.pids.alloc.1])
        pids := s.pids.alloc.2
        starts := Function.update s.starts s.pids.alloc.1
          (some fun addr => addr ∈ ([0x400000, 0x600000, 0x00007fff00000000] : List Int)) }) :=
  if_neg h

theorem sysFork (hk : Inv k) (h : Mirrors k s) (pid : Int) :
    Follows (k.sysFork pid) (s.fork pid) := by
  cases hproc : k.processTable.get pid with
  | none =>
      unfold System.fork
      rw [sysFork_of_none hproc, if_pos (h.absent_of_none hproc)]
      exact ⟨rfl, h⟩
  | some parent =>
      have hphase := phase_sysFork hk hproc
      have hchildren := childrenOf_sysFork hk hproc
      rw [fork_of_present (h.not_absent hproc), h.pids]
      rw [sysFork_of_get hproc] at hphase hchildren ⊢
      generalize hchild : k.processTable.pidAlloc.alloc.1 = child at hphase hchildren ⊢
      refine ⟨rfl,
        { files := h.files
          owner := fun other fd => ?_
          phase := fun other => ?_
          children := fun other => ?_
          pids := rfl
          starts := fun other => ?_
          free := h.free
          brk := h.brk }⟩
      · rw [h.owner]
        have hspawn := holds_spawn_iff hk.pids parent.name pid parent.creds.uid
          parent.creds.gid parent.cmdline other fd
        symm
        refine Iff.trans (holds_update_keep ?_ other fd) hspawn
        exact fun proc => rfl
      · rw [hphase]
        by_cases hnew : other = child
        · rw [if_pos hnew, hnew]
          exact Function.update_self _ _ _
        · rw [if_neg hnew]
          exact (Function.update_of_ne hnew _ _).trans (h.phase other)
      · rw [hchildren]
        by_cases hpid : other = pid
        · rw [if_pos hpid, hpid]
          exact (Function.update_self _ _ _).trans (by rw [h.children])
        · rw [if_neg hpid]
          exact (Function.update_of_ne hpid _ _).trans (h.children other)
      · change Function.update s.starts child _ other =
          ((k.vmm.addressSpaces.set child (newAddressSpace child)).get? other).map startsOf
        by_cases hnew : other = child
        · rw [hnew, Function.update_self, Dict.get?_set_self, Option.map_some,
            startsOf_newAddressSpace]
        · rw [Function.update_of_ne hnew, Dict.get?_set_of_ne _ _ hnew]
          exact h.starts other

theorem of_update (h : Mirrors k s) {pid : Int} {f : Process → Process}
    (hfdt : ∀ proc, (f proc).fdt = proc.fdt)
    (hchildren : ∀ proc, (f proc).children = proc.children) {phase : Int → Phase}
    (hphase : ∀ other, phase other =
      KernelState.phase other { k with processTable := k.processTable.update pid f }) :
    Mirrors { k with processTable := k.processTable.update pid f } { s with phase := phase } :=
  { h with
    owner := fun other fd => (h.owner other fd).trans (holds_update_keep hfdt other fd).symm
    phase := hphase
    children := fun other => (h.children other).trans (childrenOf_update rfl hchildren).symm }

theorem sysExecve (h : Mirrors k s) (pid : Int) (path : Str) (argv envp : Option (List Str)) :
    Follows (k.sysExecve pid path argv envp) (s.execve pid, s) := by
  unfold KernelState.sysExecve System.execve
  cases hproc : k.processTable.get pid with
  | none =>
      rw [if_pos (h.absent_of_none hproc)]
      exact ⟨rfl, h⟩
  | some proc =>
      rw [if_neg (h.not_absent hproc)]
      refine ⟨rfl,
        h.of_update (f := fun proc => proc.execute path) (fun _ => rfl) (fun _ => rfl) ?_⟩
      intro other
      rw [h.phase]
      symm
      refine phase_update rfl ?_ other
      exact fun proc => rfl

theorem sysExit (h : Mirrors k s) (pid code : Int) :
    Follows (k.sysExit pid code) (s.exit pid) := by
  cases hproc : k.processTable.get pid with
  | none =>
      unfold KernelState.sysExit System.exit
      rw [hproc, h.absent_of_none hproc]
      exact ⟨rfl, h⟩
  | some proc =>
      have hphase := phase_sysExit hproc code
      have hpid : s.phase pid = phaseOf proc := (h.phase pid).trans (phase_of_get hproc)
      unfold KernelState.sysExit at hphase ⊢
      rw [hproc] at hphase ⊢
      dsimp only at hphase ⊢
      have hafter : ∀ phase : Int → Phase,
          (∀ other, phase other = if other = pid then .zombie proc.ppid else k.phase other) →
          Mirrors
            { k with
              processTable := k.processTable.update pid fun proc => proc.terminate code }
            { s with phase := phase } := by
        intro phase hshape
        refine h.of_update (f := fun proc => proc.terminate code) (fun _ => rfl) (fun _ => rfl) ?_
        exact fun other => (hshape other).trans (hphase other).symm
      unfold System.exit
      rw [hpid]
      unfold phaseOf at hpid ⊢
      by_cases hzombie : proc.state = .zombie
      · rw [if_pos hzombie] at hpid ⊢
        refine ⟨rfl, hafter s.phase fun other => ?_⟩
        by_cases hother : other = pid
        · rw [if_pos hother, hother, hpid]
        · rw [if_neg hother, h.phase other]
      · rw [if_neg hzombie]
        refine ⟨rfl, hafter _ fun other => ?_⟩
        by_cases hother : other = pid
        · rw [if_pos hother, hother, Function.update_self]
        · rw [if_neg hother, Function.update_of_ne hother, h.phase other]

theorem zombieChild_eq (h : Mirrors k s) (pid : Int) : s.zombieChild pid = k.reapable pid := by
  rw [← head?_zombies, zombies, List.head?_filter, System.zombieChild, h.children]
  congr 1
  funext child
  rw [isZombie_eq, h.phase]

theorem sysWait4 (hk : Inv k) (h : Mirrors k s) (pid childPid options : Int) :
    Follows (k.sysWait4 pid childPid options) (s.wait4 pid) := by
  unfold System.wait4
  cases hproc : k.processTable.get pid with
  | none =>
      have hsame : k.sysWait4 pid childPid options = (-EINVAL, k) := by
        unfold KernelState.sysWait4
        rw [hproc]
      rw [if_pos (h.absent_of_none hproc), hsame]
      exact ⟨rfl, h⟩
  | some proc =>
      rw [if_neg (h.not_absent hproc), h.zombieChild_eq]
      cases hreap : k.reapable pid with
      | none =>
          have hsame : k.sysWait4 pid childPid options = (0, k) := by
            have hfind : proc.children.find? k.processTable.isZombie = none := by
              simpa [reapable, hproc] using hreap
            unfold KernelState.sysWait4
            simp only [hproc, hfind]
          rw [hsame]
          exact ⟨rfl, h⟩
      | some child =>
          have hphase := phase_sysWait4 hk hreap childPid options
          have hchildren := childrenOf_sysWait4 hk hreap childPid options
          obtain ⟨-, gone, -, hgone, -⟩ := reaped_of_reapable hk hreap
          rw [sysWait4_of_reapable hreap] at hphase hchildren ⊢
          refine ⟨rfl,
            { files := h.files
              owner := fun other fd => ?_
              phase := fun other => ?_
              children := fun other => ?_
              pids := ?_
              starts := h.starts
              free := h.free
              brk := h.brk }⟩
          · change (s.reap pid child).owner fd = some other ↔
              (k.processTable.remove child).Holds other fd
            rw [holds_remove_iff hgone, ← h.owner, System.owner_reap_iff]
          · rw [hphase]
            by_cases hother : other = child
            · rw [if_pos hother, hother]
              exact Function.update_self _ _ _
            · rw [if_neg hother]
              exact (Function.update_of_ne hother _ _).trans (h.phase other)
          · rw [hchildren]
            change Function.update (Function.update s.children pid _) child [] other = _
            by_cases hother : other = child
            · rw [if_pos hother, hother, Function.update_self]
            · rw [if_neg hother, Function.update_of_ne hother]
              by_cases hpid : other = pid
              · rw [if_pos hpid, hpid, Function.update_self, h.children]
              · rw [if_neg hpid, Function.update_of_ne hpid, h.children]
          · change s.pids.free child = (k.processTable.remove child).pidAlloc
            rw [ProcessTable.remove_pidAlloc hgone, h.pids]

theorem sysKill (h : Mirrors k s) (pid targetPid signum : Int) :
    k.sysKill pid targetPid signum = s.kill targetPid signum := by
  unfold KernelState.sysKill System.kill
  cases hproc : k.processTable.get targetPid with
  | none => rw [if_pos (h.absent_of_none hproc)]
  | some proc => rw [if_neg (h.not_absent hproc)]

end Mirrors

/-! ## The refinement -/

def Models (k : KernelState) (s : System) : Prop :=
  Inv k ∧ Mirrors k s

theorem refines_system : Service.Refines Models serve System.respond := by
  have hboth : ∀ {k s}, Models k s → ∀ req : Request,
      (serve k req).1 = .ok (s.serve req).1 ∧ Mirrors (serve k req).2 (s.serve req).2 := by
    rintro k s ⟨hk, h⟩ ⟨pid, call⟩
    have hreturned : ∀ {result : Int × KernelState} {expected : Int × System},
        Follows result expected →
          (perform.returned result).1 = .ok expected.1 ∧
            Mirrors (perform.returned result).2 expected.2 :=
      fun hfollows => ⟨congrArg Except.ok hfollows.1, hfollows.2⟩
    cases call with
    | read fd size => exact hreturned (h.sysRead pid fd size)
    | write fd data => exact hreturned (h.sysWrite pid fd data)
    | openat dirfd path flags =>
        obtain ⟨fd, hfd, hfollows⟩ := h.sysOpenat hk.descriptors pid dirfd path flags
        exact ⟨hfd.trans (congrArg Except.ok hfollows.1), hfollows.2⟩
    | close fd => exact hreturned (h.sysClose hk.descriptors pid fd)
    | mmap addr length flags name =>
        exact hreturned (h.sysMmap hk.spaces pid addr length flags name)
    | munmap addr length => exact hreturned (h.sysMunmap pid addr length)
    | brk newBrk => exact hreturned (h.sysBrk hk.initialBrk_le pid newBrk)
    | nanosleep seconds nanos => exact ⟨rfl, h⟩
    | getpid => exact ⟨rfl, h⟩
    | fork => exact hreturned (h.sysFork hk pid)
    | execve path argv envp => exact hreturned (h.sysExecve pid path argv envp)
    | exit code => exact hreturned (h.sysExit pid code)
    | wait4 childPid options => exact hreturned (h.sysWait4 hk pid childPid options)
    | kill targetPid signum => exact ⟨congrArg Except.ok (h.sysKill pid targetPid signum), h⟩
    | unknown => exact ⟨rfl, h⟩
  exact ⟨fun h req => (hboth h req).1, fun h req => ⟨inv_step _ req h.1, (hboth h req).2⟩⟩

theorem mirrors_boot : Mirrors boot System.boot where
  files := VFS.refines_fileStore.after (VFS.represents_rootVfs "tmpfs".toList) System.bootRequests
  owner pid fd := iff_of_false (Option.some_ne_none pid).symm (boot_holds pid fd)
  phase := by
    have hkeys : boot.processTable.table.keys = [0, 2] := by decide +kernel
    intro pid
    by_cases hzero : pid = 0
    · subst hzero
      decide +kernel
    by_cases htwo : pid = 2
    · subst htwo
      decide +kernel
    have hnone : boot.processTable.get pid = none := by
      apply Dict.get?_eq_none.mpr
      rw [Dict.mem_iff_keys, hkeys]
      simp [hzero, htwo]
    rw [phase_of_none hnone]
    exact if_neg (not_or.mpr ⟨hzero, htwo⟩)
  children := by
    have hkeys : boot.processTable.table.keys = [0, 2] := by decide +kernel
    intro pid
    by_cases hzero : pid = 0
    · subst hzero
      decide +kernel
    by_cases htwo : pid = 2
    · subst htwo
      decide +kernel
    have hnone : boot.processTable.get pid = none := by
      apply Dict.get?_eq_none.mpr
      rw [Dict.mem_iff_keys, hkeys]
      simp [hzero, htwo]
    unfold childrenOf
    rw [hnone]
    exact if_neg hzero
  pids := by decide +kernel
  starts := by
    intro pid
    change _ = Option.map startsOf (Dict.get? (Dict.set (Dict.set Dict.empty 0 _) 2 _) pid)
    rw [Dict.get?_set, Dict.get?_set, Dict.get?_empty]
    by_cases htwo : pid = 2
    · rw [if_pos htwo, Option.map_some, startsOf_newAddressSpace]
      exact if_pos (Or.inr htwo)
    · rw [if_neg htwo]
      by_cases hzero : pid = 0
      · rw [if_pos hzero, Option.map_some, startsOf_newAddressSpace]
        exact if_pos (Or.inl hzero)
      · rw [if_neg hzero]
        exact if_neg (not_or.mpr ⟨hzero, htwo⟩)
  free := by
    change _ = (PhysicalMemoryManager.init defaultPhysPages).freePages
    rw [PhysicalMemoryManager.freePages_eq_count, PhysicalMemoryManager.owners_init,
      Bump.count_none_cells]
    rfl
  brk _ := rfl

/-- From booting on, whatever calls the processes make in whatever order, each is answered by
the kernel exactly as by the abstract system. -/
theorem replies_eq_system (reqs : List Request) :
    Service.replies serve boot reqs = Service.replies System.respond System.boot reqs :=
  refines_system.replies_eq ⟨inv_boot, mirrors_boot⟩ reqs

end ComputeKernel.Kernel.KernelState
