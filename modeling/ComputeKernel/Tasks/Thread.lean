import ComputeKernel.Tasks.Process

/-!
# Threads

The thread table owns the thread objects.  Everything else refers to a thread by
its tid: the table has one thread for each tid and the tid takes part in the
comparison of threads, so comparing threads is comparing tids.
-/

namespace ComputeKernel.Tasks

open Lib

structure CpuContext where
  rax : Int := 0
  rbx : Int := 0
  rcx : Int := 0
  rdx : Int := 0
  rsi : Int := 0
  rdi : Int := 0
  rsp : Int := 0
  rbp : Int := 0
  rip : Int := 0
  rflags : Int := 0x202
  cs : Int := 0x08
  ss : Int := 0x10
  deriving DecidableEq, Repr

structure Thread where
  tid : Int
  pid : Int
  name : Str
  state : TaskState := .new
  cpuContext : CpuContext := {}
  timeslice : Int := 10
  remainingTicks : Int := 10
  waitReason : Str := []
  isKernelThread : Bool := false
  cpuAffinity : Int := -1
  priority : Int := 0
  deriving DecidableEq, Repr

/-- Freed tids are handed out again before new ones; none is free twice. -/
structure TidAllocator where
  nextTid : Int
  freeTids : List Int
  freeTids_nodup : freeTids.Nodup
  freeTids_lt : ∀ tid ∈ freeTids, tid < nextTid

namespace TidAllocator

def init : TidAllocator := ⟨1, [], List.nodup_nil, by simp⟩

def InUse (alloc : TidAllocator) (tid : Int) : Prop :=
  tid ∉ alloc.freeTids ∧ tid < alloc.nextTid

def alloc (alloc : TidAllocator) : Int × TidAllocator :=
  match alloc with
  | ⟨nextTid, tid :: rest, hnodup, hlt⟩ =>
      (tid, ⟨nextTid, rest, (List.nodup_cons.mp hnodup).2,
        fun tid' htid' => hlt tid' (List.mem_cons_of_mem _ htid')⟩)
  | ⟨nextTid, [], hnodup, _⟩ => (nextTid, ⟨nextTid + 1, [], hnodup, by simp⟩)

theorem not_inUse_alloc (alloc : TidAllocator) : ¬ alloc.InUse alloc.alloc.1 := by
  rcases alloc with ⟨nextTid, freeTids, hnodup, hlt⟩
  cases freeTids with
  | nil => exact fun h => Int.lt_irrefl _ h.2
  | cons tid rest => exact fun h => h.1 List.mem_cons_self

theorem inUse_alloc_iff (alloc : TidAllocator) (tid : Int) :
    alloc.alloc.2.InUse tid ↔ tid = alloc.alloc.1 ∨ alloc.InUse tid := by
  rcases alloc with ⟨nextTid, freeTids, hnodup, hlt⟩
  cases freeTids with
  | nil =>
      simp only [InUse, TidAllocator.alloc, List.not_mem_nil, not_false_iff, true_and]
      omega
  | cons first rest =>
      have hfirst := (List.nodup_cons.mp hnodup).1
      have hbound := hlt first List.mem_cons_self
      simp only [InUse, TidAllocator.alloc, List.mem_cons, not_or]
      by_cases htid : tid = first
      · simp [htid, hfirst, hbound]
      · simp [htid]

def free (alloc : TidAllocator) (tid : Int) (h : alloc.InUse tid) : TidAllocator where
  nextTid := alloc.nextTid
  freeTids := alloc.freeTids ++ [tid]
  freeTids_nodup := by
    apply alloc.freeTids_nodup.append (List.nodup_singleton tid)
    exact List.disjoint_singleton.mpr h.1
  freeTids_lt := by
    intro tid' htid'
    rcases List.mem_append.mp htid' with hold | hnew
    · exact alloc.freeTids_lt tid' hold
    · rw [List.mem_singleton.mp hnew]
      exact h.2

theorem inUse_free_iff (alloc : TidAllocator) {tid : Int} (h : alloc.InUse tid) (tid' : Int) :
    (alloc.free tid h).InUse tid' ↔ tid' ≠ tid ∧ alloc.InUse tid' := by
  simp only [InUse, free, List.mem_append, List.mem_singleton, not_or]
  constructor
  · rintro ⟨⟨hfree, hne⟩, hlt⟩
    exact ⟨hne, hfree, hlt⟩
  · rintro ⟨hne, hfree, hlt⟩
    exact ⟨⟨hfree, hne⟩, hlt⟩

end TidAllocator

/-- Thread objects by tid, with the tids in use. -/
structure ThreadTable where
  threads : Dict Int Thread
  tidAlloc : TidAllocator
  keyed : ∀ tid thread, threads.get? tid = some thread → thread.tid = tid
  inUse : ∀ tid ∈ threads, tidAlloc.InUse tid

namespace ThreadTable

def init : ThreadTable where
  threads := Dict.empty
  tidAlloc := TidAllocator.init
  keyed := by simp
  inUse := by simp

def get (tt : ThreadTable) (tid : Int) : Option Thread :=
  tt.threads.get? tid

instance : Membership Int ThreadTable := ⟨fun tt tid => tid ∈ tt.threads⟩

instance (tid : Int) (tt : ThreadTable) : Decidable (tid ∈ tt) :=
  inferInstanceAs (Decidable (tid ∈ tt.threads))

theorem mem_iff {tt : ThreadTable} {tid : Int} : tid ∈ tt ↔ ∃ thread, tt.get tid = some thread :=
  Dict.mem_iff_exists

def newContext (tid : Int) (isKernelThread : Bool) : CpuContext :=
  if isKernelThread then
    { cs := 0x08, ss := 0x10, rsp := 0xFFFF800000000000 + tid * 0x10000 }
  else
    { cs := 0x2B, ss := 0x23, rsp := 0x00007fff00000000 - tid * 0x10000 }

def newThread (tid pid : Int) (name : Str) (timeslice : Int) (isKernelThread : Bool) :
    Thread where
  tid := tid
  pid := pid
  name := name
  cpuContext := newContext tid isKernelThread
  timeslice := timeslice
  remainingTicks := timeslice
  isKernelThread := isKernelThread

def spawn (tt : ThreadTable) (pid : Int) (name : Str) (timeslice : Int)
    (isKernelThread : Bool) : Int × ThreadTable :=
  let tid := tt.tidAlloc.alloc.1
  (tid,
    { threads := tt.threads.set tid (newThread tid pid name timeslice isKernelThread)
      tidAlloc := tt.tidAlloc.alloc.2
      keyed := by
        intro tid' thread h
        rw [Dict.get?_set] at h
        split at h
        · rename_i htid
          cases h
          exact htid.symm
        · exact tt.keyed tid' thread h
      inUse := by
        intro tid' h
        rw [TidAllocator.inUse_alloc_iff]
        exact (Dict.mem_set.mp h).imp_right (tt.inUse tid') })

/-- Only the tid of a thread that was in the table is given back. -/
def remove (tt : ThreadTable) (tid : Int) : ThreadTable :=
  if h : tid ∈ tt.threads then
    { threads := tt.threads.erase tid
      tidAlloc := tt.tidAlloc.free tid (tt.inUse tid h)
      keyed := by
        intro tid' thread hthread
        rw [Dict.get?_erase] at hthread
        split at hthread
        · cases hthread
        · exact tt.keyed tid' thread hthread
      inUse := by
        intro tid' htid'
        obtain ⟨hne, hmem⟩ := Dict.mem_erase.mp htid'
        exact (tt.tidAlloc.inUse_free_iff _ tid').mpr ⟨hne, tt.inUse tid' hmem⟩ }
  else tt

def update (tt : ThreadTable) (tid : Int) (f : Thread → Thread)
    (hf : ∀ thread, (f thread).tid = thread.tid) : ThreadTable where
  threads := tt.threads.modify tid f
  tidAlloc := tt.tidAlloc
  inUse tid' h := tt.inUse tid' (Dict.mem_modify.mp h)
  keyed := by
    intro tid' thread h
    rw [Dict.get?_modify] at h
    split at h
    · rename_i htid
      obtain ⟨old, hold, rfl⟩ := Option.map_eq_some_iff.mp h
      rw [hf, htid, tt.keyed tid old hold]
    · exact tt.keyed tid' thread h

@[simp] theorem get_update (tt : ThreadTable) (tid tid' : Int) (f : Thread → Thread)
    (hf : ∀ thread, (f thread).tid = thread.tid) :
    (tt.update tid f hf).get tid' =
      if tid' = tid then (tt.get tid).map f else tt.get tid' :=
  Dict.get?_modify tt.threads tid tid' f

@[simp] theorem mem_update {tt : ThreadTable} {tid tid' : Int} {f : Thread → Thread}
    {hf : ∀ thread, (f thread).tid = thread.tid} : tid' ∈ tt.update tid f hf ↔ tid' ∈ tt :=
  Dict.mem_modify

theorem spawn_fresh (tt : ThreadTable) (pid : Int) (name : Str) (timeslice : Int)
    (isKernelThread : Bool) : (tt.spawn pid name timeslice isKernelThread).1 ∉ tt :=
  fun h => tt.tidAlloc.not_inUse_alloc (tt.inUse _ h)

theorem get_spawn (tt : ThreadTable) (pid : Int) (name : Str) (timeslice : Int)
    (isKernelThread : Bool) (tid : Int) :
    (tt.spawn pid name timeslice isKernelThread).2.get tid =
      if tid = (tt.spawn pid name timeslice isKernelThread).1 then
        some (newThread tid pid name timeslice isKernelThread)
      else tt.get tid := by
  by_cases htid : tid = tt.tidAlloc.alloc.1
  · simp [get, spawn, htid]
  · simp [get, spawn, Dict.get?_set, htid]

end ThreadTable

end ComputeKernel.Tasks
