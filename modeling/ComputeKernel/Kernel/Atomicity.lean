import ComputeKernel.Kernel.Invariant

/-!
# Failed calls

A call that returns an error code leaves the whole state as it was, with one
exception: `mmap` returns the address it was asked for without a look at its sign,
so a successful mapping at the address `-12` returns what a failed one would.
-/

namespace ComputeKernel.Kernel.KernelState

open Lib Fs Memory Tasks Vfs

/-- The call is an `mmap` that succeeds at an address that is an error code. -/
def MapsAtErrorCode (k : KernelState) (pid nr : Int) (args : List Arg) : Prop :=
  ∃ addr length flags name, decode nr args = some (.mmap addr length flags name) ∧
    addr ∈ errorCodes ∧ 0 < length ∧ pid ∈ k.processTable.table ∧
    (VirtualMemoryManager.pagesNeeded length).toNat ≤ k.vmm.pmm.freePages

theorem mmapAddr_mem_errorCodes {addr : Int} (h : mmapAddr addr ∈ errorCodes) :
    addr ∈ errorCodes := by
  unfold mmapAddr at h
  split at h
  · have := neg_of_mem_errorCodes h
    omega
  · exact h

theorem mmapAddr_of_mem_errorCodes {addr : Int} (h : addr ∈ errorCodes) :
    mmapAddr addr = addr := by
  have := neg_of_mem_errorCodes h
  exact if_neg (by omega)

theorem sysMmap_of_le {k : KernelState} {pid length : Int} {space : AddressSpace}
    (hlive : pid ∈ k.processTable.table) (hspace : k.vmm.addressSpaces.get? pid = some space)
    (hlength : 0 < length)
    (hfree : (VirtualMemoryManager.pagesNeeded length).toNat ≤ k.vmm.pmm.freePages)
    (addr : Int) (flags name : Str) :
    (k.sysMmap pid addr length flags name).1 = mmapAddr addr ∧
      (k.sysMmap pid addr length flags name).2.vmm.addressSpaces.get? pid =
        some (space.map (mmapAddr addr) length flags name) := by
  obtain ⟨proc, hproc⟩ := ProcessTable.mem_table_iff.mp hlive
  have hmap := VirtualMemoryManager.mapPages_of_le hspace hlength hfree (mmapAddr addr)
    flags name
  unfold sysMmap
  rw [if_neg (Int.not_le.mpr hlength), hproc]
  dsimp only
  rw [hmap]
  exact ⟨rfl, Dict.get?_set_self _ _ _⟩

section Effect

variable {k k' : KernelState} {pid r : Int} {call : Syscall}

theorem unchanged_of_effect (h : Inv k) (he : Effect k pid call (.ok r) k')
    (hr : r ∈ errorCodes) :
    k' = k ∨ ∃ addr length flags name, call = .mmap addr length flags name ∧
      addr ∈ errorCodes ∧ 0 < length ∧ pid ∈ k.processTable.table ∧
      (VirtualMemoryManager.pagesNeeded length).toNat ≤ k.vmm.pmm.freePages := by
  have hneg := neg_of_mem_errorCodes hr
  cases he with
  | nothing => exact Or.inl rfl
  | read _ _ => omega
  | @write fd data proc _ _ =>
      rcases k.vfs.write_cases fd data with ⟨-, hsame⟩ | ⟨hlength, -⟩
      · left
        rw [hsame]
      · omega
  | openat _ _ _ _ =>
      have := h.descriptors.three_le_nextFd
      omega
  | close _ _ => omega
  | @mmap addr length flags name hlive hlength hmap =>
      exact Or.inr ⟨addr, length, flags, name, rfl, mmapAddr_mem_errorCodes hr, hlength, hlive,
        VirtualMemoryManager.pagesNeeded_le_of_mapPages hmap⟩
  | munmap => omega
  | brk hgrow =>
      have hcurrent := initialBrk_le_currentBrk h.initialBrk_le pid
      unfold initialBrk at hcurrent
      omega
  | fork _ =>
      have := h.pids.two_le_alloc
      omega
  | execve => omega
  | exit => omega
  | wait4 hparent hchild _ =>
      obtain ⟨child, hchild, -⟩ := h.family.listed _ _ hparent _ hchild
      have := h.pids.nonneg (ProcessTable.mem_table_iff.mpr ⟨child, hchild⟩)
      omega

end Effect

/-- In every reachable state, a call that returns an error code leaves the state as it
was exactly when it is not a successful `mmap` at that code. -/
theorem failed_unchanged_iff {k k' : KernelState} {pid nr r : Int} {args : List Arg}
    (hk : Reachable k) (hcall : k.dispatch pid nr args = some (.ok r, k')) :
    (r ∈ errorCodes → k' = k) ↔ ¬ k.MapsAtErrorCode pid nr args := by
  have h := reachable_inv hk
  constructor
  · rintro hatomic ⟨addr, length, flags, name, hdecode, haddr, hlength, hlive, hfree⟩
    obtain ⟨space, hspace⟩ := Dict.mem_iff_exists.mp (h.spaces pid hlive)
    have hmmap := sysMmap_of_le hlive hspace hlength hfree addr flags name
    rw [dispatch, hdecode] at hcall
    cases hcall
    rw [mmapAddr_of_mem_errorCodes haddr] at hmmap
    have hsame := hatomic (by rw [hmmap.1]; exact haddr)
    -- the address space has one VMA more than before
    rw [hsame, hspace] at hmmap
    have hareas := congrArg (fun space => space.areas.length) (Option.some.inj hmmap.2)
    simp [AddressSpace.map] at hareas
  · intro hcode hr
    obtain ⟨call, hdecode, heffect⟩ := effect_of_dispatch h hcall
    rcases unchanged_of_effect h heffect hr with hsame | ⟨addr, length, flags, name, rfl, hmaps⟩
    · exact hsame
    · exact absurd ⟨addr, length, flags, name, hdecode, hmaps⟩ hcode

/-- Freeing an address where nothing is mapped. -/
theorem failed_unchanged_iff_munmap :
    ∃ k', boot.dispatch 2 11 [.int 0x1000] = some (.ok (-EINVAL), k') ∧
      ((-EINVAL ∈ errorCodes → k' = boot) ↔ ¬ boot.MapsAtErrorCode 2 11 [.int 0x1000]) :=
  have hcall : boot.dispatch 2 11 [.int 0x1000] =
      some (.ok (-EINVAL), (boot.sysMunmap 2 0x1000 0).2) := rfl
  ⟨_, hcall, failed_unchanged_iff .boot hcall⟩

/-- The init process maps a page at `-12`: the call returns the code for being out of
memory and has taken a frame. -/
theorem mmap_returns_enomem :
    Reachable boot ∧ ∃ k', boot.dispatch 2 9 [.int (-12)] = some (.ok (-ENOMEM), k') ∧
      -ENOMEM ∈ errorCodes ∧ boot.vmm.pmm.framesOf 2 = [] ∧ k'.vmm.pmm.framesOf 2 = [0] := by
  refine ⟨.boot, (boot.sysMmap 2 (-12) 4096 "rw-".toList "[mmap]".toList).2, ?_, by decide, ?_, ?_⟩
  · have hresult : (boot.sysMmap 2 (-12) 4096 "rw-".toList "[mmap]".toList).1 = -ENOMEM := by
      decide +kernel
    rw [← hresult]
    rfl
  · decide +kernel
  · decide +kernel

end ComputeKernel.Kernel.KernelState
