import ComputeKernel.Kernel.Run
import ComputeKernel.Lib.Protocol
import ComputeKernel.Memory.Packing

/-!
# Page frames of the running kernel

No call gives a frame back: unmapping, exiting and reaping drop VMAs and processes only.  The
frame pool is therefore handed out from the front, to `mmap` and `brk` calls in the order in
which they are made, and what is left only shrinks.
-/

namespace ComputeKernel.Kernel.KernelState

open Lib Lib.Run Fs Memory Tasks Vfs VirtualMemoryManager

/-- The frames that a request asks for, and for which process number. -/
def demand (k : KernelState) (req : Request) : Option (Int × Nat) :=
  match req.call with
  | .mmap _ length _ _ =>
      if req.pid ∈ k.processTable.table ∧ 0 < length then some (req.pid, framesFor length)
      else none
  | .brk newBrk =>
      if req.pid ∈ k.vmm.addressSpaces ∧ k.currentBrk req.pid < newBrk then
        some (req.pid, framesFor (newBrk - k.currentBrk req.pid))
      else none
  | _ => none

def demands (k : KernelState) (reqs : List Request) : List (Int × Nat) :=
  Protocol.history step demand k reqs

def grants (k : KernelState) (reqs : List Request) : List (Int × Nat) :=
  (demands k reqs).foldl (Bump.request defaultPhysPages) []

/-- The pool holds the frames of the granted demands, one behind the other. -/
structure Packed (log : List (Int × Nat)) (k : KernelState) : Prop where
  used_le : Bump.used log ≤ defaultPhysPages
  owners : k.vmm.pmm.owners = Bump.cells defaultPhysPages log

theorem packed_boot : Packed [] boot where
  used_le := Nat.zero_le _
  owners := PhysicalMemoryManager.owners_init defaultPhysPages

/-! ## Single calls -/

section Step

variable {k : KernelState} {pid : Int} {log : List (Int × Nat)}

theorem pmm_effect {k' : KernelState} {call : Syscall} {result : Except FsError Int}
    (he : Effect k pid call result k')
    (hmmap : ∀ addr length flags name, call ≠ .mmap addr length flags name)
    (hbrk : ∀ newBrk, call ≠ .brk newBrk) : k'.vmm.pmm = k.vmm.pmm := by
  cases he with
  | mmap _ _ _ => exact absurd rfl (hmmap _ _ _ _)
  | brk _ => exact absurd rfl (hbrk _)
  | munmap => exact unmapPages_pmm _ _ _
  | _ => rfl

theorem sysMmap_packed (h : Inv k) (hk : Packed log k) (hlive : pid ∈ k.processTable.table)
    {length : Int} (hlength : 0 < length) (addr : Int) (flags name : Str) :
    (k.sysMmap pid addr length flags name).1 =
        (if Bump.used log + framesFor length ≤ defaultPhysPages then mmapAddr addr else -ENOMEM) ∧
      (k.sysMmap pid addr length flags name).2.vmm.pmm.owners =
        Bump.cells defaultPhysPages
          (Bump.request defaultPhysPages log (pid, framesFor length)) := by
  obtain ⟨proc, hproc⟩ := ProcessTable.mem_table_iff.mp hlive
  obtain ⟨hgranted, howners⟩ := mapPages_packed (h.spaces pid hlive) hlength hk.used_le hk.owners
    (mmapAddr addr) flags name
  unfold sysMmap
  rw [if_neg (Int.not_le.mpr hlength), hproc]
  dsimp only
  cases hmap : k.vmm.mapPages pid (mmapAddr addr) length flags name with
  | mk ok vmm =>
      rw [hmap] at hgranted howners
      cases ok with
      | true => exact ⟨(if_pos (of_decide_eq_true hgranted.symm)).symm, howners⟩
      | false => exact ⟨(if_neg (of_decide_eq_false hgranted.symm)).symm, howners⟩

theorem packed_step (h : Inv k) (hk : Packed log k) (req : Request) :
    Packed ((k.demand req).toList.foldl (Bump.request defaultPhysPages) log) (k.step req) := by
  refine ⟨Bump.used_foldl_le hk.used_le _, ?_⟩
  obtain ⟨pid, call⟩ := req
  have he := effect_step h ⟨pid, call⟩
  cases call with
  | mmap addr length flags name =>
      change (k.sysMmap pid addr length flags name).2.vmm.pmm.owners = _
      unfold demand
      dsimp only
      split
      · rename_i hasks
        exact (sysMmap_packed h hk hasks.1 hasks.2 addr flags name).2
      · rename_i hasks
        have hsame : (k.sysMmap pid addr length flags name).2 = k := by
          unfold sysMmap
          split
          · rfl
          · rename_i hlength
            have hdead : k.processTable.get pid = none :=
              Dict.get?_eq_none.mpr fun hlive => hasks ⟨hlive, Int.not_le.mp hlength⟩
            rw [hdead]
        rw [hsame]
        exact hk.owners
  | brk newBrk =>
      change (k.sysBrk pid newBrk).2.vmm.pmm.owners = _
      have hinitial : initialBrk ≤ k.currentBrk pid := initialBrk_le_currentBrk h.initialBrk_le pid
      have hpos : 0 < initialBrk := by decide
      unfold sysBrk demand
      dsimp only
      by_cases hgrow : k.currentBrk pid < newBrk
      · rw [if_neg (by omega)]
        dsimp only
        split
        · rename_i hasks
          exact (mapPages_packed hasks.1 (Int.sub_pos.mpr hgrow) hk.used_le hk.owners _ _ _).2
        · rename_i hasks
          have hspace : k.vmm.addressSpaces.get? pid = none :=
            Dict.get?_eq_none.mpr fun hmem => hasks ⟨hmem, hgrow⟩
          unfold mapPages
          rw [hspace]
          exact hk.owners
      · rw [if_pos (Or.inr (Int.not_lt.mp hgrow)), if_neg fun hasks => hgrow hasks.2]
        exact hk.owners
  | _ =>
      change (k.step _).vmm.pmm.owners = _
      rw [pmm_effect he]
      · exact hk.owners
      all_goals
        intros
        intro heq
        cases heq

end Step

/-! ## Runs -/

theorem packed_run {k : KernelState} {log : List (Int × Nat)} (h : Inv k) (hk : Packed log k)
    (reqs : List Request) :
    Packed ((demands k reqs).foldl (Bump.request defaultPhysPages) log) (run step k reqs) := by
  induction reqs generalizing k log with
  | nil => exact hk
  | cons req reqs ih =>
      have hnext := ih (inv_step k req h) (packed_step h hk req)
      unfold demands at hnext ⊢
      rw [Protocol.history, List.foldl_append]
      exact hnext

/-- After any run from booting, the frames are those of the granted demands, first come first
served from frame 0 on, and a mapping is made exactly if it fits behind them. -/
theorem frames_run (reqs : List Request) :
    let k := run step boot reqs
    let log := grants boot reqs
    k.vmm.pmm.owners = Bump.cells defaultPhysPages log ∧
      ∀ pid ∈ k.processTable.table, ∀ addr length flags name, 0 < length →
        k.answer ⟨pid, .mmap addr length flags name⟩ =
          .ok (if Bump.used log + framesFor length ≤ defaultPhysPages then mmapAddr addr
            else -ENOMEM) := by
  intro k log
  have hk : Packed log k := packed_run inv_boot packed_boot reqs
  refine ⟨hk.owners, ?_⟩
  intro pid hlive addr length flags name hlength
  exact congrArg Except.ok (sysMmap_packed (inv_run reqs) hk hlive hlength addr flags name).1

theorem Packed.freePages {k : KernelState} {log : List (Int × Nat)} (hk : Packed log k) :
    k.vmm.pmm.freePages = defaultPhysPages - Bump.used log := by
  rw [PhysicalMemoryManager.freePages_eq_count, hk.owners, Bump.count_none_cells]

theorem freePages_run_le (reqs more : List Request) :
    (run step boot (reqs ++ more)).vmm.pmm.freePages ≤ (run step boot reqs).vmm.pmm.freePages := by
  have hk : Packed (grants boot reqs) (run step boot reqs) :=
    packed_run inv_boot packed_boot reqs
  have hmore := packed_run (inv_run reqs) hk more
  have hgrown := Bump.used_le_foldl defaultPhysPages (grants boot reqs)
    (demands (run step boot reqs) more)
  rw [run_append, hk.freePages, hmore.freePages]
  omega

theorem sysMmap_of_full {k : KernelState} {pid length : Int} (hlive : pid ∈ k.processTable.table)
    (hlength : 0 < length) (hfull : k.vmm.pmm.freePages < framesFor length) (addr : Int)
    (flags name : Str) : k.sysMmap pid addr length flags name = (-ENOMEM, k) := by
  obtain ⟨proc, hproc⟩ := ProcessTable.mem_table_iff.mp hlive
  unfold sysMmap
  rw [if_neg (Int.not_le.mpr hlength), hproc]
  dsimp only
  rw [mapPages_of_lt hfull]

/-- Memory that is too full for a number of frames stays so, whoever unmaps, exits or is reaped
in the meantime. -/
theorem full_forever {reqs : List Request} {n : Nat}
    (hfull : (run step boot reqs).vmm.pmm.freePages < n) (more : List Request) {pid length : Int}
    (hlive : pid ∈ (run step boot (reqs ++ more)).processTable.table) (hlength : 0 < length)
    (hn : n ≤ framesFor length) (addr : Int) (flags name : Str) :
    (run step boot (reqs ++ more)).perform pid (.mmap addr length flags name) =
      (.ok (-ENOMEM), run step boot (reqs ++ more)) := by
  have hless := freePages_run_le reqs more
  change perform.returned (sysMmap _ pid addr length flags name) = _
  rw [sysMmap_of_full hlive hlength (by omega)]
  rfl

/-- With one page mapped and unmapped again, the whole pool is no longer to be had. -/
theorem full_forever_one_page :
    let reqs : List Request := [⟨2, .mmap 0x1000 1 [] []⟩]
    let k := run step boot (reqs ++ [⟨2, .munmap 0x1000 1⟩])
    k.perform 2 (.mmap 0 (1024 * 4096) [] []) = (.ok (-ENOMEM), k) := by
  intro reqs k
  have hk : Packed (grants boot reqs) (run step boot reqs) :=
    packed_run inv_boot packed_boot reqs
  have hused : Bump.used (grants boot reqs) = 1 := by decide +kernel
  have hfull : (run step boot reqs).vmm.pmm.freePages < 1024 := by
    rw [hk.freePages, hused]
    decide
  exact full_forever hfull [⟨2, .munmap 0x1000 1⟩] (by decide +kernel) (by decide) (by decide) _ _ _

end ComputeKernel.Kernel.KernelState
