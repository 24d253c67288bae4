import ComputeKernel.Kernel.Run
import ComputeKernel.Memory.Layout

/-!
# Overlapping VMAs

Nobody checks a mapping against the VMAs that are there, so the VMAs of an address space
stay disjoint exactly in the runs that ask for free addresses only.
-/

namespace ComputeKernel.Kernel

open Lib Lib.Run Fs Memory Tasks Vfs

inductive Call
  | syscall (req : Request)
  | load (elf : FakeElf) (pid : Int)

namespace KernelState

def stepCall (k : KernelState) : Call → KernelState
  | .syscall req => k.step req
  | .load elf pid => { k with vmm := (ElfLoader.load k.vmm elf pid).2 }

def createAddressSpace (k : KernelState) (pid : Int) : KernelState :=
  { k with vmm := k.vmm.createAddressSpace pid }

def areas (k : KernelState) (pid : Int) : List VirtualMemoryArea :=
  ((k.vmm.addressSpaces.get? pid).map AddressSpace.areas).getD []

/-- The VMAs that a call asks for in the address space of the process. -/
def requested (k : KernelState) (pid : Int) : Call → List VirtualMemoryArea
  | .syscall ⟨caller, .mmap addr length flags name⟩ =>
      if caller = pid ∧ 0 < length ∧ pid ∈ k.processTable.table then
        [⟨mmapAddr addr, mmapAddr addr + length, flags, name⟩]
      else []
  | .syscall ⟨caller, .brk newBrk⟩ =>
      if caller = pid ∧ newBrk ≠ 0 ∧ k.currentBrk pid < newBrk then
        [⟨k.currentBrk pid, newBrk, "rw-".toList, "[heap]".toList⟩]
      else []
  | .load elf target => if target = pid then elf.areas else []
  | .syscall _ => []

def granted (k : KernelState) (pid : Int) (call : Call) : List VirtualMemoryArea :=
  VirtualMemoryManager.granted k.vmm.pmm.freePages (k.requested pid call)

/-- What the call maps for the process is apart from the VMAs that are there, and from
each other. -/
def Clear (pid : Int) (k : KernelState) (call : Call) : Prop :=
  (k.granted pid call).Pairwise VirtualMemoryArea.Apart ∧
    ∀ area ∈ k.areas pid, ∀ new ∈ k.granted pid call, area.Apart new

instance (pid : Int) (k : KernelState) (call : Call) : Decidable (k.Clear pid call) :=
  inferInstanceAs (Decidable (_ ∧ _))

def LayoutOk (pid : Int) (k : KernelState) : Prop :=
  ∃ space, k.vmm.addressSpaces.get? pid = some space ∧ space.LayoutOk

/-! ## One call -/

section Call

variable {k : KernelState} {pid : Int} {space : AddressSpace}

theorem get?_mapPages (hspace : k.vmm.addressSpaces.get? pid = some space)
    (start size : Int) (flags name : Str) :
    (k.vmm.mapPages pid start size flags name).2.addressSpaces.get? pid =
      some ⟨space.pid, space.areas ++
        VirtualMemoryManager.granted k.vmm.pmm.freePages
          [⟨start, start + size, flags, name⟩]⟩ := by
  have hmap := VirtualMemoryManager.get?_mapAll hspace [⟨start, start + size, flags, name⟩]
  rw [VirtualMemoryManager.mapAll, List.foldl_cons, List.foldl_nil,
    VirtualMemoryArea.size_mk] at hmap
  exact hmap

def ActsOnSpaces : Syscall → Prop
  | .mmap .. | .munmap .. | .brk .. | .fork => True
  | _ => False

theorem vmm_effect {k' : KernelState} {call : Syscall} {result : Except FsError Int}
    (he : Effect k pid call result k') (hcall : ¬ ActsOnSpaces call) : k'.vmm = k.vmm := by
  cases he with
  | mmap _ _ _ => exact absurd trivial hcall
  | munmap => exact absurd trivial hcall
  | brk _ => exact absurd trivial hcall
  | fork _ => exact absurd trivial hcall
  | _ => rfl

theorem vmm_openat (k : KernelState) (caller dirfd : Int) (path flags : Str) :
    (k.sysOpenat caller dirfd path flags).2.vmm = k.vmm := by
  unfold sysOpenat
  split
  · rfl
  · split
    · rfl
    · split
      · rfl
      · split
        · rfl
        · rfl

theorem vmm_step (req : Request) (hcall : ¬ ActsOnSpaces req.call) :
    (k.step req).vmm = k.vmm := by
  obtain ⟨caller, call⟩ := req
  cases call with
  | mmap addr length flags name => exact absurd trivial hcall
  | munmap addr length => exact absurd trivial hcall
  | brk newBrk => exact absurd trivial hcall
  | fork => exact absurd trivial hcall
  | read fd size => exact vmm_effect (k.sysRead_effect caller fd size) hcall
  | write fd data => exact vmm_effect (k.sysWrite_effect caller fd data) hcall
  | openat dirfd path flags => exact vmm_openat k caller dirfd path flags
  | close fd => exact vmm_effect (k.sysClose_effect caller fd) hcall
  | execve path argv envp => exact vmm_effect (k.sysExecve_effect caller path argv envp) hcall
  | exit code => exact vmm_effect (k.sysExit_effect caller code) hcall
  | wait4 childPid options => exact vmm_effect (k.sysWait4_effect caller childPid options) hcall
  | _ => rfl

theorem vmm_mmap (k : KernelState) (caller addr length : Int) (flags name : Str) :
    (k.step ⟨caller, .mmap addr length flags name⟩).vmm =
      if 0 < length ∧ caller ∈ k.processTable.table then
        (k.vmm.mapPages caller (mmapAddr addr) length flags name).2
      else k.vmm := by
  change (k.sysMmap caller addr length flags name).2.vmm = _
  unfold sysMmap
  by_cases hlength : 0 < length
  · rw [if_neg (by omega)]
    cases hproc : k.processTable.get caller with
    | none =>
        have hgone : caller ∉ k.processTable.table := Dict.get?_eq_none.mp hproc
        rw [if_neg fun h => hgone h.2]
    | some proc =>
        rw [if_pos ⟨hlength, Dict.mem_of_get? hproc⟩]
        dsimp only
        split
        · rename_i hmap
          rw [hmap]
        · rename_i hmap
          rw [hmap]
  · rw [if_pos (by omega), if_neg fun h => hlength h.1]

theorem vmm_brk (k : KernelState) (caller newBrk : Int) :
    (k.step ⟨caller, .brk newBrk⟩).vmm =
      if newBrk ≠ 0 ∧ k.currentBrk caller < newBrk then
        (k.vmm.mapPages caller (k.currentBrk caller) (newBrk - k.currentBrk caller)
          "rw-".toList "[heap]".toList).2
      else k.vmm := by
  change (k.sysBrk caller newBrk).2.vmm = _
  unfold sysBrk
  dsimp only
  by_cases hraise : newBrk ≠ 0 ∧ k.currentBrk caller < newBrk
  · rw [if_pos hraise, if_neg (by omega)]
  · rw [if_neg hraise, if_pos (by omega)]

inductive AreasStep (k : KernelState) (pid : Int) (space : AddressSpace) (call : Call) : Prop
  | grow (space' : AddressSpace)
      (hspace' : (k.stepCall call).vmm.addressSpaces.get? pid = some space')
      (hareas : space'.areas = space.areas ++ k.granted pid call)
  | drop (space' : AddressSpace)
      (hspace' : (k.stepCall call).vmm.addressSpaces.get? pid = some space')
      (hnone : k.requested pid call = []) (hareas : space'.areas.Sublist space.areas)
  | create (hnone : k.requested pid call = [])
      (hspace' : (k.stepCall call).vmm.addressSpaces.get? pid =
        some (VirtualMemoryManager.newAddressSpace pid))

namespace AreasStep

variable (hspace : k.vmm.addressSpaces.get? pid = some space)

theorem same {call : Call}
    (hsame : (k.stepCall call).vmm.addressSpaces.get? pid = k.vmm.addressSpaces.get? pid)
    (hspace : k.vmm.addressSpaces.get? pid = some space)
    (hnone : k.requested pid call = []) : AreasStep k pid space call :=
  drop space (hsame.trans hspace) hnone (List.Sublist.refl _)

include hspace

theorem load (elf : FakeElf) (target : Int) : AreasStep k pid space (.load elf target) := by
  by_cases htarget : target = pid
  · subst htarget
    refine grow ⟨space.pid, space.areas ++ k.granted target (.load elf target)⟩ ?_ rfl
    change (ElfLoader.load k.vmm elf target).2.addressSpaces.get? target = _
    rw [ElfLoader.load_eq (Dict.mem_of_get? hspace), granted, requested, if_pos rfl]
    exact VirtualMemoryManager.get?_mapAll hspace elf.areas
  · refine same ?_ hspace (if_neg htarget)
    change (ElfLoader.load k.vmm elf target).2.addressSpaces.get? pid = _
    by_cases hmem : target ∈ k.vmm.addressSpaces
    · rw [ElfLoader.load_eq hmem]
      exact VirtualMemoryManager.get?_mapAll_of_ne k.vmm (Ne.symm htarget) elf.areas
    · unfold ElfLoader.load
      rw [Dict.get?_eq_none.mpr hmem]

theorem mmap (caller addr length : Int) (flags name : Str) :
    AreasStep k pid space (.syscall ⟨caller, .mmap addr length flags name⟩) := by
  have hvmm := vmm_mmap k caller addr length flags name
  by_cases hself : caller = pid ∧ 0 < length ∧ pid ∈ k.processTable.table
  · obtain ⟨rfl, hmaps⟩ := hself
    refine grow ⟨space.pid, space.areas ++ k.granted caller _⟩ ?_ rfl
    change (k.step _).vmm.addressSpaces.get? caller = _
    rw [hvmm, if_pos hmaps, granted, requested, if_pos ⟨rfl, hmaps⟩]
    exact get?_mapPages hspace (mmapAddr addr) length flags name
  · refine same ?_ hspace (if_neg hself)
    change (k.step _).vmm.addressSpaces.get? pid = _
    rw [hvmm]
    split
    · rename_i hmaps
      have hne : pid ≠ caller := by
        rintro rfl
        exact hself ⟨rfl, hmaps⟩
      exact (k.vmm.mapPages_frame hne _ _ _ _).1
    · rfl

theorem brk (caller newBrk : Int) :
    AreasStep k pid space (.syscall ⟨caller, .brk newBrk⟩) := by
  have hvmm := vmm_brk k caller newBrk
  by_cases hself : caller = pid ∧ newBrk ≠ 0 ∧ k.currentBrk pid < newBrk
  · obtain ⟨rfl, hraise⟩ := hself
    have hend : k.currentBrk caller + (newBrk - k.currentBrk caller) = newBrk := by omega
    have hmap := get?_mapPages hspace (k.currentBrk caller) (newBrk - k.currentBrk caller)
      "rw-".toList "[heap]".toList
    rw [hend] at hmap
    refine grow ⟨space.pid, space.areas ++ k.granted caller _⟩ ?_ rfl
    change (k.step _).vmm.addressSpaces.get? caller = _
    rw [hvmm, if_pos hraise, granted, requested, if_pos ⟨rfl, hraise⟩]
    exact hmap
  · refine same ?_ hspace (if_neg hself)
    change (k.step _).vmm.addressSpaces.get? pid = _
    rw [hvmm]
    split
    · rename_i hraise
      have hne : pid ≠ caller := by
        rintro rfl
        exact hself ⟨rfl, hraise⟩
      exact (k.vmm.mapPages_frame hne _ _ _ _).1
    · rfl

theorem munmap (caller addr length : Int) :
    AreasStep k pid space (.syscall ⟨caller, .munmap addr length⟩) := by
  by_cases haddr : addr = 0
  · refine same ?_ hspace rfl
    change (k.sysMunmap caller addr length).2.vmm.addressSpaces.get? pid = _
    rw [sysMunmap, if_pos haddr]
  · have hvmm : (k.stepCall (.syscall ⟨caller, .munmap addr length⟩)).vmm =
        (k.vmm.unmapPages caller addr).2 := by
      change (k.sysMunmap caller addr length).2.vmm = _
      rw [sysMunmap, if_neg haddr]
    by_cases hself : caller = pid
    · subst hself
      have hunmap := VirtualMemoryManager.get?_unmapPages_self hspace addr
      rw [← hvmm] at hunmap
      exact drop _ hunmap rfl List.filter_sublist
    · refine same ?_ hspace rfl
      rw [hvmm]
      exact (k.vmm.unmapPages_frame (Ne.symm hself) addr).1

theorem fork (caller : Int) : AreasStep k pid space (.syscall ⟨caller, .fork⟩) := by
  cases hparent : k.processTable.get caller with
  | none =>
      refine same ?_ hspace rfl
      change (k.sysFork caller).2.vmm.addressSpaces.get? pid = _
      rw [sysFork_of_none hparent]
  | some parent =>
      have hvmm : (k.stepCall (.syscall ⟨caller, .fork⟩)).vmm =
          k.vmm.createAddressSpace k.processTable.pidAlloc.alloc.1 := by
        change (k.sysFork caller).2.vmm = _
        rw [sysFork_of_get hparent]
      by_cases hchild : pid = k.processTable.pidAlloc.alloc.1
      · apply create rfl
        rw [hvmm, ← hchild]
        exact Dict.get?_set_self _ _ _
      · refine same ?_ hspace rfl
        rw [hvmm]
        exact Dict.get?_set_of_ne _ _ hchild

theorem other (caller : Int) {call : Syscall} (hcall : ¬ ActsOnSpaces call)
    (hnone : k.requested pid (.syscall ⟨caller, call⟩) = []) :
    AreasStep k pid space (.syscall ⟨caller, call⟩) := by
  refine same ?_ hspace hnone
  change (k.step ⟨caller, call⟩).vmm.addressSpaces.get? pid = _
  rw [vmm_step _ hcall]

end AreasStep

theorem areasStep (hspace : k.vmm.addressSpaces.get? pid = some space) (call : Call) :
    AreasStep k pid space call := by
  cases call with
  | load elf target => exact .load hspace elf target
  | syscall req =>
      obtain ⟨caller, call⟩ := req
      cases call with
      | mmap addr length flags name => exact .mmap hspace caller addr length flags name
      | munmap addr length => exact .munmap hspace caller addr length
      | brk newBrk => exact .brk hspace caller newBrk
      | fork => exact .fork hspace caller
      | _ => exact .other hspace caller not_false rfl

end Call

/-! ## Runs -/

theorem granted_of_requested {k : KernelState} {pid : Int} {call : Call}
    (h : k.requested pid call = []) : k.granted pid call = [] := by
  rw [granted, h]
  rfl

theorem areas_of_get? {k : KernelState} {pid : Int} {space : AddressSpace}
    (hspace : k.vmm.addressSpaces.get? pid = some space) : k.areas pid = space.areas := by
  unfold areas
  rw [hspace]
  rfl

theorem layoutOk_stepCall_iff {k : KernelState} {pid : Int} (call : Call)
    (h : k.LayoutOk pid) : (k.stepCall call).LayoutOk pid ↔ k.Clear pid call := by
  obtain ⟨space, hspace, hok⟩ := h
  have hclear (hnone : k.requested pid call = []) : k.Clear pid call := by
    unfold Clear
    rw [granted_of_requested hnone]
    exact ⟨List.Pairwise.nil, fun _ _ _ hnew => absurd hnew List.not_mem_nil⟩
  cases areasStep hspace call with
  | grow space' hspace' hareas =>
      have happend : space'.LayoutOk ↔ k.Clear pid call := by
        rw [AddressSpace.layoutOk_iff, hareas, List.pairwise_append]
        unfold Clear
        rw [areas_of_get? hspace]
        exact and_iff_right hok.apart
      rw [← happend]
      constructor
      · rintro ⟨found, hfound, hlayout⟩
        rw [hspace'] at hfound
        cases hfound
        exact hlayout
      · exact fun hlayout => ⟨space', hspace', hlayout⟩
  | drop space' hspace' hnone hareas =>
      apply iff_of_true _ (hclear hnone)
      exact ⟨space', hspace', AddressSpace.layoutOk_iff.mpr (hok.apart.sublist hareas)⟩
  | create hnone hspace' =>
      apply iff_of_true _ (hclear hnone)
      exact ⟨_, hspace', VirtualMemoryManager.layoutOk_newAddressSpace pid⟩

/-- A mapping at any address is never clear for a process that has one already. -/
theorem not_clear_mmap {k : KernelState} {pid length : Int} {area : VirtualMemoryArea}
    (harea : area ∈ k.areas pid) (haddr : area.Contains (mmapAddr 0))
    (hlive : pid ∈ k.processTable.table) (hlength : 0 < length)
    (hframes : (VirtualMemoryManager.pagesNeeded length).toNat ≤ k.vmm.pmm.freePages)
    (flags name : Str) : ¬ k.Clear pid (.syscall ⟨pid, .mmap 0 length flags name⟩) := by
  have hgranted : k.granted pid (.syscall ⟨pid, .mmap 0 length flags name⟩) =
      [⟨mmapAddr 0, mmapAddr 0 + length, flags, name⟩] := by
    rw [granted, requested, if_pos ⟨rfl, hlength, hlive⟩,
      VirtualMemoryManager.granted, VirtualMemoryArea.size_mk, if_pos ⟨hlength, hframes⟩]
    rfl
  rintro ⟨-, hclear⟩
  rw [hgranted] at hclear
  apply hclear area harea _ List.mem_cons_self (mmapAddr 0) haddr
  exact ⟨Int.le_refl _, Int.lt_add_of_pos_right _ hlength⟩

theorem not_clear_load {k : KernelState} {pid : Int} {elf : FakeElf}
    (hstack : FakeElf.stack ∈ k.areas pid)
    (hgranted : FakeElf.stack ∈ k.granted pid (.load elf pid)) :
    ¬ k.Clear pid (.load elf pid) := by
  rintro ⟨-, hclear⟩
  have hself := hclear FakeElf.stack hstack FakeElf.stack hgranted
  revert hself
  decide

theorem not_clear_makeSimple {k : KernelState} {pid : Int}
    (hstack : FakeElf.stack ∈ k.areas pid) (hframes : 259 ≤ k.vmm.pmm.freePages)
    (name : Str) (base : Int) : ¬ k.Clear pid (.load (.makeSimple name base) pid) := by
  apply not_clear_load hstack
  have hsizes : (FakeElf.makeSimple name base).areas.map VirtualMemoryArea.size =
      [0x1000, 0x1000, 0x1000, 0x100000] := by
    simp only [FakeElf.areas, FakeElf.makeSimple, FakeElf.stack, List.map_append, List.map_cons,
      List.map_nil, VirtualMemoryArea.size_mk]
    rfl
  rw [granted, requested, if_pos rfl, VirtualMemoryManager.granted_eq_self]
  · exact List.mem_append_right _ List.mem_cons_self
  · intro area hmem
    have hsize := List.mem_map_of_mem (f := VirtualMemoryArea.size) hmem
    rw [hsizes] at hsize
    simp only [List.mem_cons, List.not_mem_nil, or_false] at hsize
    omega
  · have hsum := congrArg
      (List.foldr (fun size total => (VirtualMemoryManager.pagesNeeded size).toNat + total) 0)
      hsizes
    rw [List.foldr_map] at hsum
    exact (Nat.le_of_eq hsum).trans hframes

/-- From the making of an address space on, its VMAs stay disjoint exactly in the runs in
which nothing is mapped where something is mapped already. -/
theorem always_layoutOk_iff (k : KernelState) (pid : Int) (calls : List Call) :
    Always stepCall (LayoutOk pid) (k.createAddressSpace pid) calls ↔
      Guarded stepCall (Clear pid) (k.createAddressSpace pid) calls := by
  apply always_iff_guarded
  · exact fun k call h hclear => (layoutOk_stepCall_iff call h).mpr hclear
  · exact fun k call h hclear hok => hclear ((layoutOk_stepCall_iff call h).mp hok)
  · exact ⟨_, Dict.get?_set_self _ _ _, VirtualMemoryManager.layoutOk_newAddressSpace pid⟩

/-- The init process asks twice for one page at any address, and gets the same page
twice. -/
theorem mmap_same_page :
    let anywhere : Request := ⟨2, .mmap 0 4096 "rw-".toList "[mmap]".toList⟩
    Kernel.boot.createAddressSpace 2 = Kernel.boot ∧
    Kernel.boot.answer anywhere = .ok 0x7f0000000000 ∧
    (Kernel.boot.step anywhere).answer anywhere = .ok 0x7f0000000000 ∧
    ¬ Always stepCall (LayoutOk 2) (Kernel.boot.createAddressSpace 2)
      [.syscall anywhere, .syscall anywhere] := by
  intro anywhere
  have hboot : Kernel.boot.createAddressSpace 2 = Kernel.boot := by
    unfold createAddressSpace VirtualMemoryManager.createAddressSpace
    rw [Dict.set_eq_self rfl]
  refine ⟨hboot, by decide +kernel, by decide +kernel, ?_⟩
  rw [hboot]
  rintro ⟨-, hfirst, hsecond⟩
  have hclear := (layoutOk_stepCall_iff (.syscall anywhere) hfirst).mp hsecond
  revert hclear
  decide +kernel

end KernelState

end ComputeKernel.Kernel
