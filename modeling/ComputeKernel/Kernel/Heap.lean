import ComputeKernel.Kernel.Family
import ComputeKernel.Kernel.Recycled

/-!
# The heap below the break

The break of a process and the VMAs below it move together in the runs in which every
raising `brk` finds the frames it needs and no process is forked under a number that
has a break already.
-/

namespace ComputeKernel.Kernel.KernelState

open Lib Lib.Run Fs Memory Tasks Vfs

def Writable (k : KernelState) (pid addr : Int) : Prop :=
  ∃ space, k.vmm.addressSpaces.get? pid = some space ∧
    ∃ area ∈ space.areas, area.Contains addr ∧ 'w' ∈ area.flags

def HeapWritable (k : KernelState) (pid : Int) : Prop :=
  ∀ addr, initialBrk ≤ addr → addr < k.currentBrk pid → k.Writable pid addr

def InHeap (k : KernelState) (pid : Int) (area : VirtualMemoryArea) : Prop :=
  max area.start initialBrk < min area.end_ (k.currentBrk pid)

instance (k : KernelState) (pid : Int) (area : VirtualMemoryArea) :
    Decidable (k.InHeap pid area) :=
  inferInstanceAs (Decidable (_ < _))

def UnmapsHeap (k : KernelState) (pid addr : Int) : Prop :=
  ∃ area ∈ ((k.vmm.addressSpaces.get? pid).map AddressSpace.areas).getD [],
    area.start = addr ∧ k.InHeap pid area

instance (k : KernelState) (pid addr : Int) : Decidable (k.UnmapsHeap pid addr) :=
  inferInstanceAs (Decidable (∃ area ∈ _, _))

def Raises (k : KernelState) (pid newBrk : Int) : Prop :=
  newBrk ≠ 0 ∧ k.currentBrk pid < newBrk

def HasFrames (k : KernelState) (pid newBrk : Int) : Prop :=
  (VirtualMemoryManager.pagesNeeded (newBrk - k.currentBrk pid)).toNat ≤ k.vmm.pmm.freePages

/-- A kernel with the numbers of the processes that have unmapped part of their heap
since they were forked. -/
structure Tracked where
  kernel : KernelState
  unmapped : List Int

namespace Tracked

def step (t : Tracked) (req : Request) : Tracked where
  kernel := t.kernel.step req
  unmapped :=
    match req.call with
    | .munmap addr _ =>
        if t.kernel.UnmapsHeap req.pid addr then req.pid :: t.unmapped else t.unmapped
    | .fork => t.unmapped.filter (· ≠ (t.kernel.sysFork req.pid).1)
    | _ => t.unmapped

def boot : Tracked := ⟨Kernel.boot, []⟩

/-- The heap of every live process is writable, unless it unmapped part of it itself. -/
def HeapMapped (t : Tracked) : Prop :=
  ∀ pid ∈ t.kernel.processTable.table, pid ∉ t.unmapped → t.kernel.HeapWritable pid

def FailsCleanly (t : Tracked) (req : Request) : Prop :=
  match req.call with
  | .brk newBrk => t.kernel.Raises req.pid newBrk → ¬ t.kernel.HasFrames req.pid newBrk →
      t.kernel.answer req = .ok (t.kernel.currentBrk req.pid) ∧ t.kernel.step req = t.kernel
  | _ => True

/-- A raising `brk` finds its frames, and a child is forked under a number that has no
break. -/
def Backed (t : Tracked) (req : Request) : Prop :=
  match req.call with
  | .brk newBrk => t.kernel.Raises req.pid newBrk → t.kernel.HasFrames req.pid newBrk
  | .fork => req.pid ∈ t.kernel.processTable.table →
      t.kernel.processTable.pidAlloc.alloc.1 ∉ t.kernel.brk
  | _ => True

end Tracked

/-! ## Writable addresses of one process -/

theorem HeapWritable.of_same {k k' : KernelState} {pid : Int} (h : k.HeapWritable pid)
    (hspace : k'.vmm.addressSpaces.get? pid = k.vmm.addressSpaces.get? pid)
    (hbrk : k'.brk.get? pid = k.brk.get? pid) : k'.HeapWritable pid := by
  unfold HeapWritable Writable currentBrk
  rw [hspace, hbrk]
  exact h

theorem Writable.of_areas {k k' : KernelState} {pid addr : Int} (h : k.Writable pid addr)
    (hareas : ∀ space, k.vmm.addressSpaces.get? pid = some space →
      ∃ space', k'.vmm.addressSpaces.get? pid = some space' ∧
        ∀ area ∈ space.areas, area.Contains addr → area ∈ space'.areas) :
    k'.Writable pid addr := by
  obtain ⟨space, hspace, area, hmem, haddr, hflags⟩ := h
  obtain ⟨space', hspace', hkept⟩ := hareas space hspace
  exact ⟨space', hspace', area, hkept area hmem haddr, haddr, hflags⟩

theorem Writable.mapPages {k : KernelState} {pid addr : Int} (h : k.Writable pid addr)
    (vaddr size : Int) (flags name : Str) (brk : Dict Int Int) :
    Writable { k with vmm := (k.vmm.mapPages pid vaddr size flags name).2, brk := brk }
      pid addr := by
  apply h.of_areas
  intro space hspace
  refine ⟨_, VirtualMemoryManager.get?_mapPages_self hspace vaddr size flags name, ?_⟩
  intro area hmem _
  split
  · exact List.mem_append_left _ hmem
  · exact hmem

theorem HeapWritable.raise {k : KernelState} {pid newBrk : Int} (h : k.HeapWritable pid)
    (hspace : pid ∈ k.vmm.addressSpaces) (hraise : k.currentBrk pid < newBrk)
    (hframes : k.HasFrames pid newBrk) :
    HeapWritable
      { k with
        vmm := (k.vmm.mapPages pid (k.currentBrk pid) (newBrk - k.currentBrk pid)
          "rw-".toList "[heap]".toList).2
        brk := k.brk.set pid newBrk } pid := by
  intro addr hlow hhigh
  have hbrk : addr < newBrk := by
    simpa [currentBrk] using hhigh
  by_cases hold : addr < k.currentBrk pid
  · exact (h addr hlow hold).mapPages _ _ _ _ _
  · obtain ⟨space, hget⟩ := Dict.mem_iff_exists.mp hspace
    have hmap := VirtualMemoryManager.mapPages_of_le hget (by omega) hframes
      (k.currentBrk pid) "rw-".toList "[heap]".toList
    have hwritable : 'w' ∈ "rw-".toList := by decide
    refine ⟨space.map (k.currentBrk pid) (newBrk - k.currentBrk pid) "rw-".toList
      "[heap]".toList, ?_, ⟨k.currentBrk pid, newBrk, "rw-".toList, "[heap]".toList⟩, ?_, ?_,
      hwritable⟩
    · rw [hmap]
      exact Dict.get?_set_self _ _ _
    · have hend : k.currentBrk pid + (newBrk - k.currentBrk pid) = newBrk := by omega
      rw [AddressSpace.map, hend]
      exact List.mem_append_right _ List.mem_cons_self
    · have hlow : k.currentBrk pid ≤ addr := by omega
      exact ⟨hlow, hbrk⟩

theorem HeapWritable.munmap {k : KernelState} {pid addr : Int} (h : k.HeapWritable pid)
    (houtside : ¬ k.UnmapsHeap pid addr) :
    HeapWritable { k with vmm := (k.vmm.unmapPages pid addr).2 } pid := by
  intro a hlow hhigh
  have hhigh : a < k.currentBrk pid := hhigh
  apply (h a hlow hhigh).of_areas
  intro space hspace
  refine ⟨_, VirtualMemoryManager.get?_unmapPages_self hspace addr, ?_⟩
  intro area hmem hcontains
  apply List.mem_filter.mpr
  refine ⟨hmem, decide_eq_true ?_⟩
  intro hstart
  apply houtside
  refine ⟨area, ?_, hstart, ?_⟩
  · rw [hspace]
    exact hmem
  · obtain ⟨hleft, hright⟩ := hcontains
    unfold InHeap
    omega

/-! ## One request -/

section Effect

variable {k k' : KernelState} {pid : Int} {call : Syscall} {result : Except FsError Int}

theorem heapWritable_effect (h : Inv k) (he : Effect k pid call result k')
    (hlive : pid ∈ k.processTable.table) (hheap : k.HeapWritable pid)
    (hmunmap : ∀ addr length, call = .munmap addr length → ¬ k.UnmapsHeap pid addr)
    (hbrk : ∀ newBrk, call = .brk newBrk → k.currentBrk pid < newBrk →
      k.HasFrames pid newBrk) : k'.HeapWritable pid := by
  cases he with
  | mmap _ _ _ => exact fun addr hlow hhigh => (hheap addr hlow hhigh).mapPages _ _ _ _ _
  | munmap => exact hheap.munmap (hmunmap _ _ rfl)
  | brk hgrow => exact hheap.raise (h.spaces pid hlive) hgrow (hbrk _ rfl hgrow)
  | fork _ =>
      have hne : pid ≠ k.processTable.pidAlloc.alloc.1 := by
        intro heq
        exact h.pids.alloc_fresh (heq ▸ hlive)
      exact hheap.of_same (Dict.get?_set_of_ne _ _ hne) rfl
  | _ => exact hheap.of_same rfl rfl

theorem heapWritable_other (h : Inv k) (he : Effect k pid call result k') {other : Int}
    (hne : other ≠ pid) (hlive : other ∈ k.processTable.table)
    (hlive' : other ∈ k'.processTable.table) (hheap : k.HeapWritable other) :
    k'.HeapWritable other := by
  rcases sameFor_or_reaped_of_effect h he hne hlive with hsame | ⟨-, _, _, -, -, -, -, -, hgone⟩
  · exact hheap.of_same hsame.space hsame.brk
  · exact absurd hlive' (Dict.get?_eq_none.mp hgone)

end Effect

theorem sysFork_fresh {k : KernelState} (h : Inv k) (pid : Int) :
    (k.sysFork pid).1 ∉ k.processTable.table := by
  cases hparent : k.processTable.get pid with
  | some parent =>
      rw [sysFork_of_get hparent]
      exact h.pids.alloc_fresh
  | none =>
      have herror : (k.sysFork pid).1 = -EINVAL := by
        rw [sysFork_of_none hparent]
      have hneg : -EINVAL < 0 := by decide
      intro hmem
      have := h.pids.nonneg hmem
      omega

theorem not_writable_new {k : KernelState} {pid : Int}
    (hspace : k.vmm.addressSpaces.get? pid = some (VirtualMemoryManager.newAddressSpace pid)) :
    ¬ k.Writable pid initialBrk := by
  rintro ⟨space, hget, area, hmem, hcontains, -⟩
  rw [hspace] at hget
  cases hget
  have hnone : ∀ area ∈ (VirtualMemoryManager.newAddressSpace 0).areas,
      ¬ area.Contains initialBrk := by decide
  exact hnone area hmem hcontains

namespace Tracked

theorem unmapped_of_not_mem_step {t : Tracked} {req : Request} {pid : Int}
    (h : pid ∉ (t.step req).unmapped)
    (hnew : req.call = .fork → pid ≠ (t.kernel.sysFork req.pid).1) : pid ∉ t.unmapped := by
  intro hmem
  apply h
  obtain ⟨caller, call⟩ := req
  cases call with
  | munmap addr length =>
      change pid ∈ if _ then _ else _
      split
      · exact List.mem_cons_of_mem _ hmem
      · exact hmem
  | fork => exact List.mem_filter.mpr ⟨hmem, decide_eq_true (hnew rfl)⟩
  | _ => exact hmem

def Sound (t : Tracked) : Prop :=
  Inv t.kernel ∧ BreaksRaised t.kernel

theorem heapMapped_step (t : Tracked) (req : Request) (h : t.Sound) (hheap : t.HeapMapped)
    (hreq : t.Backed req) : (t.step req).HeapMapped := by
  obtain ⟨caller, call⟩ := req
  intro pid hlive' hunmapped'
  have he := effect_step h.1 ⟨caller, call⟩
  rcases live_or_forked_effect he hlive' with hlive | ⟨hcall, hcaller, rfl, -⟩
  · have hunmapped : pid ∉ t.unmapped := by
      apply unmapped_of_not_mem_step hunmapped'
      rintro - rfl
      exact sysFork_fresh h.1 caller hlive
    have hold := hheap pid hlive hunmapped
    by_cases hpid : pid = caller
    · subst hpid
      apply heapWritable_effect h.1 he hlive hold
      · rintro addr length rfl hunmaps
        have hunmapped' : pid ∉ (if t.kernel.UnmapsHeap pid addr then pid :: t.unmapped
            else t.unmapped) := hunmapped'
        rw [if_pos hunmaps] at hunmapped'
        exact hunmapped' List.mem_cons_self
      · rintro newBrk rfl (hgrow : t.kernel.currentBrk pid < newBrk)
        have hlow := initialBrk_le_currentBrk h.1.initialBrk_le pid
        have hpos : 0 < initialBrk := by decide
        have hne : newBrk ≠ 0 := by omega
        exact hreq ⟨hne, hgrow⟩
    · exact heapWritable_other h.1 he hpid hlive hlive' hold
  · -- a forked child without a break of its own has no heap
    obtain rfl : call = .fork := hcall
    have hfresh := hreq hcaller
    intro addr hlow hhigh
    have hbreak : (t.kernel.step ⟨caller, .fork⟩).currentBrk
        t.kernel.processTable.pidAlloc.alloc.1 = initialBrk := by
      apply currentBrk_of_not_mem
      change _ ∉ (t.kernel.sysFork caller).2.brk
      rw [sysFork_brk]
      exact hfresh
    change addr < (t.kernel.step ⟨caller, .fork⟩).currentBrk _ at hhigh
    omega

/-- Without frames the break is raised all the same, and a child whose number has a
break has nothing mapped below it. -/
theorem not_heapMapped_step (t : Tracked) (req : Request) (h : t.Sound)
    (hreq : ¬ t.Backed req) (hclean : t.FailsCleanly req) : ¬ (t.step req).HeapMapped := by
  obtain ⟨caller, call⟩ := req
  cases call with
  | brk newBrk =>
      obtain ⟨hraises, hframes⟩ : t.kernel.Raises caller newBrk ∧
          ¬ t.kernel.HasFrames caller newBrk := by
        simpa [Backed] using hreq
      have hanswer : t.kernel.answer ⟨caller, .brk newBrk⟩ =
          .ok (t.kernel.currentBrk caller) := (hclean hraises hframes).1
      obtain ⟨hne, hgrow⟩ := hraises
      rw [answer_brk, if_neg (by omega)] at hanswer
      have := Except.ok.inj hanswer
      omega
  | fork =>
      obtain ⟨hcaller, hbrk⟩ : caller ∈ t.kernel.processTable.table ∧
          t.kernel.processTable.pidAlloc.alloc.1 ∈ t.kernel.brk := by
        simpa [Backed] using hreq
      obtain ⟨parent, hparent⟩ := ProcessTable.mem_table_iff.mp hcaller
      obtain ⟨brk, hget⟩ := Dict.mem_iff_exists.mp hbrk
      have hraised := h.2 _ brk hget
      have hfork := sysFork_of_get hparent
      intro hheap
      have hchild : t.kernel.processTable.pidAlloc.alloc.1 ∈
          (t.kernel.sysFork caller).2.processTable.table := by
        rw [hfork]
        apply Dict.mem_modify.mpr
        exact (ProcessTable.mem_spawn _ _ _ _ _ _ _).mpr (Or.inl rfl)
      have hspace : (t.kernel.sysFork caller).2.vmm.addressSpaces.get?
          t.kernel.processTable.pidAlloc.alloc.1 = some
            (VirtualMemoryManager.newAddressSpace t.kernel.processTable.pidAlloc.alloc.1) := by
        rw [hfork]
        exact Dict.get?_set_self _ _ _
      have hmapped : t.kernel.processTable.pidAlloc.alloc.1 ∉
          t.unmapped.filter (· ≠ (t.kernel.sysFork caller).1) := by
        rw [hfork]
        simp
      apply not_writable_new hspace
      apply hheap _ hchild hmapped initialBrk (Int.le_refl _)
      change initialBrk < (t.kernel.sysFork caller).2.currentBrk _
      rw [currentBrk, sysFork_brk, hget]
      exact hraised
  | _ => exact absurd trivial hreq

theorem failsCleanly_of_backed {t : Tracked} {req : Request} (h : t.Backed req) :
    t.FailsCleanly req := by
  obtain ⟨caller, call⟩ := req
  cases call with
  | brk newBrk => exact fun hraises hframes => absurd (h hraises) hframes
  | _ => exact trivial

/-- Throughout a run the heap of every live process is mapped up to its break and a
`brk` without frames changes nothing, exactly when every raising `brk` finds its frames
and every child is forked under a number without a break. -/
theorem heap_mapped_iff (reqs : List Request) :
    Always step HeapMapped boot reqs ∧ Guarded step FailsCleanly boot reqs ↔
      Guarded step Backed boot reqs := by
  apply always_and_guarded_iff (I := Sound)
  · exact fun t req h => breaksRaised_step t.kernel req h
  · exact fun t req h hheap hreq =>
      ⟨heapMapped_step t req h hheap hreq, failsCleanly_of_backed hreq⟩
  · exact fun t req h _ hreq hclean => not_heapMapped_step t req h hreq hclean
  · exact ⟨inv_boot, breaksRaised_boot⟩
  · intro pid _ _ addr hlow hhigh
    have hnone : KernelState.currentBrk Kernel.boot pid = initialBrk := rfl
    change addr < KernelState.currentBrk Kernel.boot pid at hhigh
    omega

/-- The init process asks for more than all frames, and gets the new break with nothing
mapped below it. -/
theorem break_without_frames :
    let k := run KernelState.step Kernel.boot [⟨2, .brk 0xb01000⟩]
    KernelState.answer Kernel.boot ⟨2, .brk 0xb01000⟩ = .ok 0xb01000 ∧
    k.currentBrk 2 = 0xb01000 ∧ ¬ k.Writable 2 initialBrk ∧
    ¬ (Always step HeapMapped boot [⟨2, .brk 0xb01000⟩] ∧
      Guarded step FailsCleanly boot [⟨2, .brk 0xb01000⟩]) := by
  intro k
  have hframes : Kernel.boot.vmm.pmm.freePages <
      (VirtualMemoryManager.pagesNeeded (0xb01000 - initialBrk)).toNat := by decide +kernel
  have hk : k = { Kernel.boot with brk := Kernel.boot.brk.set 2 0xb01000 } := by
    change (Kernel.boot.sysBrk 2 0xb01000).2 = _
    unfold sysBrk
    have hcurrent : Kernel.boot.currentBrk 2 = initialBrk := rfl
    dsimp only
    rw [hcurrent, if_neg (by decide), VirtualMemoryManager.mapPages_of_lt hframes]
  have hbreak : k.currentBrk 2 = 0xb01000 := by
    rw [hk]
    rfl
  have hunmapped : ¬ k.Writable 2 initialBrk := by
    rw [hk]
    exact not_writable_new rfl
  refine ⟨rfl, hbreak, hunmapped, ?_⟩
  rintro ⟨⟨-, h⟩, -⟩
  have hlive : (2 : Int) ∈ k.processTable.table := by
    rw [hk]
    decide +kernel
  apply hunmapped
  apply h 2 hlive List.not_mem_nil initialBrk (Int.le_refl _)
  change initialBrk < k.currentBrk 2
  rw [hbreak]
  decide

end Tracked

end ComputeKernel.Kernel.KernelState
