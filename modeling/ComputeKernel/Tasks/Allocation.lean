import ComputeKernel.Lib.Run
import ComputeKernel.Tasks.ProcessTable
import ComputeKernel.Tasks.Thread
import Mathlib.Order.Interval.Finset.Nat
import Mathlib.Data.Int.Interval

/-!
# Allocation of process and thread numbers

Whatever is spawned and removed, in any order, the numbers in use and the free list
split the numbers handed out so far.  The counter of the process table is the
largest number of processes that were live at the same time.
-/

namespace ComputeKernel.Tasks

open Lib Lib.Run

theorem length_add_length {used free : List Int} {first next : Int} (hle : first ≤ next)
    (hused : used.Nodup) (hfree : free.Nodup) (hdisjoint : used.Disjoint free)
    (hsplit : ∀ n, first ≤ n ∧ n < next ↔ n ∈ used ∨ n ∈ free) :
    (used.length : Int) + free.length = next - first := by
  have hall : (used ++ free).toFinset = Finset.Ico first next := by
    ext n
    rw [List.mem_toFinset, List.mem_append, Finset.mem_Ico]
    exact (hsplit n).symm
  have hcard := List.toFinset_card_of_nodup (hused.append hfree hdisjoint)
  rw [hall, Int.card_Ico, List.length_append] at hcard
  omega

/-! ## Processes -/

namespace ProcessTable

inductive Op
  | spawn (name : Str) (ppid uid gid : Int) (cmdline : Str)
  | remove (pid : Int)
  deriving DecidableEq

def step (pt : ProcessTable) : Op → ProcessTable
  | .spawn name ppid uid gid cmdline => (pt.spawn name ppid uid gid cmdline).2
  | .remove pid => pt.remove pid

def live (pt : ProcessTable) : List Int :=
  pt.table.keys.filter fun pid => pid ≠ 0

theorem mem_live {pt : ProcessTable} {pid : Int} :
    pid ∈ pt.live ↔ pid ∈ pt.table ∧ pid ≠ 0 := by
  rw [live, List.mem_filter, decide_eq_true_iff]
  rfl

def SpawnsFresh (pt : ProcessTable) : Prop :=
  ∀ (name : Str) (ppid uid gid : Int) (cmdline : Str),
    (pt.spawn name ppid uid gid cmdline).1.pid ∉ pt.table ∧
    ∀ pid proc, pt.get pid = some proc →
      (pt.spawn name ppid uid gid cmdline).2.get pid =
        some (if pid = ppid then
          proc.addChild (pt.spawn name ppid uid gid cmdline).1.pid else proc)

theorem PidsOk.spawnsFresh {pt : ProcessTable} (h : PidsOk pt) : SpawnsFresh pt := by
  intro name ppid uid gid cmdline
  refine ⟨h.alloc_fresh, ?_⟩
  intro pid proc hproc
  have hne : pid ≠ pt.pidAlloc.alloc.1 := by
    intro heq
    rw [heq, h.get_alloc] at hproc
    cases hproc
  rw [get_spawn, if_neg hne, hproc]
  rfl

theorem pidsOk_step (pt : ProcessTable) (op : Op) (h : PidsOk pt) : PidsOk (pt.step op) := by
  cases op with
  | spawn name ppid uid gid cmdline => exact h.spawn name ppid uid gid cmdline
  | remove pid => exact h.remove pid

theorem PidsOk.live_add_free {pt : ProcessTable} (h : PidsOk pt) :
    (pt.live.length : Int) + pt.pidAlloc.freePids.length = pt.pidAlloc.nextPid - 2 := by
  apply length_add_length h.two_le_nextPid
  · exact pt.table.keys_nodup.filter _
  · exact h.freePids_nodup
  · intro pid hlive hfree
    exact h.exclusive pid hfree (mem_live.mp hlive).1
  · intro pid
    rw [mem_live]
    exact h.handedOut pid

theorem nextPid_step (pt : ProcessTable) (op : Op) :
    (pt.step op).pidAlloc.nextPid = pt.pidAlloc.nextPid ∨
      ((pt.step op).pidAlloc.nextPid = pt.pidAlloc.nextPid + 1 ∧
        (pt.step op).pidAlloc.freePids = []) := by
  cases op with
  | spawn name ppid uid gid cmdline =>
      change pt.pidAlloc.alloc.2.nextPid = _ ∨
        pt.pidAlloc.alloc.2.nextPid = _ ∧ pt.pidAlloc.alloc.2.freePids = []
      rcases pt.pidAlloc.alloc_cases with ⟨rest, hfree, halloc⟩ | ⟨hfree, halloc⟩
      · rw [halloc]
        exact Or.inl rfl
      · rw [halloc]
        exact Or.inr ⟨rfl, hfree⟩
  | remove pid =>
      apply Or.inl
      cases hproc : pt.get pid with
      | none => rw [step, remove_of_none hproc]
      | some proc => rw [step, remove_pidAlloc hproc, PidAllocator.free_nextPid]

theorem nextPid_peak (ops : List Op) :
    IsGreatest {n : Int | ∃ pre, pre <+: ops ∧ ((run step init pre).live.length : Int) = n}
      ((run step init ops).pidAlloc.nextPid - 2) := by
  apply isGreatest_mark (fun pt => (pt.live.length : Int)) (fun pt => pt.pidAlloc.nextPid - 2)
    pidsOk_step
  · intro pt h
    have := h.live_add_free
    omega
  · intro pt op h
    have := pt.nextPid_step op
    omega
  · intro pt op h
    have hsum := (pidsOk_step pt op h).live_add_free
    rcases pt.nextPid_step op with hsame | ⟨-, hfree⟩
    · omega
    · rw [hfree, List.length_nil] at hsum
      omega
  · exact PidsOk.init
  · rfl

end ProcessTable

/-! ## Threads -/

theorem TidAllocator.alloc_cases (a : TidAllocator) :
    (a.freeTids = a.alloc.1 :: a.alloc.2.freeTids ∧ a.alloc.2.nextTid = a.nextTid) ∨
      (a.freeTids = [] ∧ a.alloc.2.freeTids = [] ∧ a.alloc.1 = a.nextTid ∧
        a.alloc.2.nextTid = a.nextTid + 1) := by
  rcases a with ⟨nextTid, freeTids, hnodup, hlt⟩
  cases freeTids with
  | nil => exact Or.inr ⟨rfl, rfl, rfl, rfl⟩
  | cons tid rest => exact Or.inl ⟨rfl, rfl⟩

namespace ThreadTable

inductive Op
  | spawn (pid : Int) (name : Str) (timeslice : Int) (isKernelThread : Bool)
  | remove (tid : Int)
  deriving DecidableEq

def step (tt : ThreadTable) : Op → ThreadTable
  | .spawn pid name timeslice isKernelThread => (tt.spawn pid name timeslice isKernelThread).2
  | .remove tid => tt.remove tid

/-- The threads of the table and the free list split the tids handed out so far. -/
structure TidsOk (tt : ThreadTable) : Prop where
  keyed : ∀ tid thread, tt.get tid = some thread → thread.tid = tid
  handedOut : ∀ tid, 1 ≤ tid ∧ tid < tt.tidAlloc.nextTid ↔
    tid ∈ tt ∨ tid ∈ tt.tidAlloc.freeTids
  exclusive : ∀ tid ∈ tt.tidAlloc.freeTids, tid ∉ tt
  freeTids_nodup : tt.tidAlloc.freeTids.Nodup
  one_le_nextTid : 1 ≤ tt.tidAlloc.nextTid

theorem tidsOk_of_handedOut {tt : ThreadTable}
    (h : ∀ tid, 1 ≤ tid ∧ tid < tt.tidAlloc.nextTid ↔ tid ∈ tt ∨ tid ∈ tt.tidAlloc.freeTids)
    (hnext : 1 ≤ tt.tidAlloc.nextTid) : TidsOk tt where
  keyed := tt.keyed
  handedOut := h
  exclusive := fun tid hfree hmem => (tt.inUse tid hmem).1 hfree
  freeTids_nodup := tt.tidAlloc.freeTids_nodup
  one_le_nextTid := hnext

theorem mem_spawn {tt : ThreadTable} {pid tid : Int} {name : Str} {timeslice : Int}
    {isKernelThread : Bool} :
    tid ∈ (tt.spawn pid name timeslice isKernelThread).2 ↔
      tid = tt.tidAlloc.alloc.1 ∨ tid ∈ tt :=
  Dict.mem_set

theorem remove_of_mem {tt : ThreadTable} {tid : Int} (h : tid ∈ tt.threads) :
    (tt.remove tid).threads = tt.threads.erase tid ∧
    (tt.remove tid).tidAlloc = tt.tidAlloc.free tid (tt.inUse tid h) := by
  unfold remove
  rw [dif_pos h]
  exact ⟨rfl, rfl⟩

theorem remove_of_not_mem {tt : ThreadTable} {tid : Int} (h : tid ∉ tt.threads) :
    tt.remove tid = tt :=
  dif_neg h

namespace TidsOk

variable {tt : ThreadTable}

theorem init : TidsOk ThreadTable.init := by
  apply tidsOk_of_handedOut
  · intro tid
    have hthread : tid ∉ ThreadTable.init := Dict.not_mem_empty tid
    have hfree : tid ∉ ThreadTable.init.tidAlloc.freeTids := List.not_mem_nil
    have hnext : ThreadTable.init.tidAlloc.nextTid = 1 := rfl
    simp only [hthread, hfree, or_false, iff_false]
    omega
  · decide

theorem spawn (h : TidsOk tt) (pid : Int) (name : Str) (timeslice : Int)
    (isKernelThread : Bool) : TidsOk (tt.spawn pid name timeslice isKernelThread).2 := by
  have halloc : (tt.spawn pid name timeslice isKernelThread).2.tidAlloc = tt.tidAlloc.alloc.2 :=
    rfl
  have hpos := h.one_le_nextTid
  apply tidsOk_of_handedOut
  · intro tid
    have hold := h.handedOut tid
    rw [mem_spawn, halloc]
    rcases tt.tidAlloc.alloc_cases with ⟨hfree, hnext⟩ | ⟨hfree, hrest, hfirst, hnext⟩
    · rw [hfree, List.mem_cons] at hold
      rw [hnext, hold]
      tauto
    · rw [hfree] at hold
      rw [hrest, hfirst, hnext]
      simp only [List.not_mem_nil, or_false] at hold ⊢
      rw [← hold]
      omega
  · rw [halloc]
    rcases tt.tidAlloc.alloc_cases with ⟨-, hnext⟩ | ⟨-, -, -, hnext⟩
    · omega
    · omega

theorem remove (h : TidsOk tt) (tid : Int) : TidsOk (tt.remove tid) := by
  by_cases hmem : tid ∈ tt.threads
  · obtain ⟨hthreads, halloc⟩ := remove_of_mem hmem
    apply tidsOk_of_handedOut
    · intro tid'
      have hold := h.handedOut tid'
      have hfree : tid' ∈ (tt.remove tid).tidAlloc.freeTids ↔
          tid' ∈ tt.tidAlloc.freeTids ∨ tid' = tid := by
        rw [halloc]
        exact List.mem_append.trans (or_congr_right List.mem_singleton)
      have hkept : tid' ∈ tt.remove tid ↔ tid' ≠ tid ∧ tid' ∈ tt := by
        change tid' ∈ (tt.remove tid).threads ↔ _
        rw [hthreads, Dict.mem_erase]
        rfl
      rw [hfree, hkept, halloc]
      change 1 ≤ tid' ∧ tid' < tt.tidAlloc.nextTid ↔ _
      rw [hold]
      have hlive : tid ∈ tt := hmem
      by_cases heq : tid' = tid
      · rw [heq]
        simp [hlive]
      · simp [heq]
    · rw [halloc]
      exact h.one_le_nextTid
  · rw [remove_of_not_mem hmem]
    exact h

end TidsOk

theorem tidsOk_step (tt : ThreadTable) (op : Op) (h : TidsOk tt) : TidsOk (tt.step op) := by
  cases op with
  | spawn pid name timeslice isKernelThread => exact h.spawn pid name timeslice isKernelThread
  | remove tid => exact h.remove tid

end ThreadTable

/-- Whatever is spawned and removed, process numbers and tids in use and free split the
numbers handed out, new ones are fresh, and the largest number of live processes has
been the counter less the two reserved numbers. -/
theorem numbers_partitioned (ops : List ProcessTable.Op) (threadOps : List ThreadTable.Op) :
    let pt := run ProcessTable.step ProcessTable.init ops
    let tt := run ThreadTable.step ThreadTable.init threadOps
    pt.PidsOk ∧ pt.SpawnsFresh ∧
    IsGreatest {n : Int | ∃ pre, pre <+: ops ∧
        ((run ProcessTable.step ProcessTable.init pre).live.length : Int) = n}
      (pt.pidAlloc.nextPid - 2) ∧
    tt.TidsOk := by
  intro pt tt
  have hpids : pt.PidsOk :=
    run_invariant ProcessTable.pidsOk_step ProcessTable.PidsOk.init ops
  refine ⟨hpids, hpids.spawnsFresh, ProcessTable.nextPid_peak ops, ?_⟩
  exact run_invariant ThreadTable.tidsOk_step ThreadTable.TidsOk.init threadOps

end ComputeKernel.Tasks
