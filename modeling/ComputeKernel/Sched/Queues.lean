import ComputeKernel.Lib.Run
import ComputeKernel.Sched.Tick

/-!
# Run queue and blocked list

The two lists stay disjoint and free of repeats, and the states of their threads
say which list they are in, exactly in the runs that never add a blocked thread.
-/

namespace ComputeKernel.Sched.Scheduler

open Lib Lib.Run Tasks

inductive Op
  | init
  | spawn (pid : Int) (name : Str) (timeslice : Int) (isKernelThread : Bool)
  | addThread (tid : Int)
  | removeThread (tid : Int)
  | blockThread (tid : Int) (reason : Str)
  | wakeThread (tid : Int)
  | tick
  deriving DecidableEq

/-- One call.  There is no object to pass for a thread that the table has not. -/
def step (s : Scheduler) : Op → Scheduler
  | .init => s.init
  | .spawn pid name timeslice isKernelThread => s.spawn pid name timeslice isKernelThread
  | .addThread tid => if h : tid ∈ s.threads then s.addThread tid h else s
  | .removeThread tid => s.removeThread tid
  | .blockThread tid reason => s.blockThread tid reason
  | .wakeThread tid => s.wakeThread tid
  | .tick => s.tick

theorem step_addThread {s : Scheduler} {tid : Int} (h : tid ∈ s.threads) :
    s.step (.addThread tid) = s.addThread tid h :=
  dif_pos h

theorem step_addThread_of_not_mem {s : Scheduler} {tid : Int} (h : tid ∉ s.threads) :
    s.step (.addThread tid) = s :=
  dif_neg h

def start : Scheduler :=
  new ThreadTable.init

/-- No thread occurs twice in the two lists together, queued threads are runnable or
running, and blocked threads sleep. -/
structure QueuesOk (s : Scheduler) : Prop where
  nodup : (s.runqueue ++ s.blocked).Nodup
  queued : ∀ tid ∈ s.runqueue,
    s.stateOf tid = some .runnable ∨ s.stateOf tid = some .running
  sleeping : ∀ tid ∈ s.blocked, s.stateOf tid = some .sleepInt

def AddsAwake (s : Scheduler) : Op → Prop
  | .addThread tid => tid ∉ s.blocked
  | _ => True

theorem queuesOk_start : QueuesOk start where
  nodup := List.nodup_nil
  queued := by simp [start, new]
  sleeping := by simp [start, new]

/-! ## Threads untouched by a call -/

theorem get_spawn_of_mem {s : Scheduler} {tid : Int} (h : tid ∈ s.threads) (pid : Int)
    (name : Str) (timeslice : Int) (isKernelThread : Bool) :
    (s.spawn pid name timeslice isKernelThread).threads.get tid = s.threads.get tid := by
  have hne : tid ≠ (s.threads.spawn pid name timeslice isKernelThread).1 := by
    rintro rfl
    exact s.threads.spawn_fresh pid name timeslice isKernelThread h
  exact (ThreadTable.get_spawn s.threads pid name timeslice isKernelThread tid).trans
    (if_neg hne)

theorem get_init_of_mem {s : Scheduler} {tid : Int} (h : tid ∈ s.threads) :
    s.init.threads.get tid = s.threads.get tid := by
  have hne : tid ≠ (s.threads.spawn 0 "[idle]".toList 1 true).1 := by
    rintro rfl
    exact s.threads.spawn_fresh 0 "[idle]".toList 1 true h
  refine (ThreadTable.get_update _ _ tid makeRunnable fun _ => rfl).trans ?_
  rw [if_neg hne]
  exact get_spawn_of_mem h 0 "[idle]".toList 1 true

/-! ## What the calls do to the lists -/

theorem addThread_spec (s : Scheduler) {tid : Int} (h : tid ∈ s.threads) :
    (s.addThread tid h).threads = s.threads.update tid makeRunnable (fun _ => rfl) ∧
    (s.addThread tid h).runqueue =
      (if tid ∈ s.runqueue then s.runqueue else s.runqueue ++ [tid]) ∧
    (s.addThread tid h).blocked = s.blocked ∧
    (s.addThread tid h).currentThread = s.currentThread ∧
    (s.addThread tid h).idleThread = s.idleThread := by
  by_cases hqueue : tid ∈ s.runqueue
  · have hadd : s.addThread tid h = s.updateThread tid makeRunnable fun _ => rfl :=
      if_pos hqueue
    rw [hadd, if_pos hqueue]
    exact ⟨rfl, rfl, rfl, rfl, rfl⟩
  · have hadd : s.addThread tid h = (s.updateThread tid makeRunnable fun _ => rfl).enqueue
        tid (Dict.mem_modify.mpr h) := if_neg hqueue
    rw [hadd, if_neg hqueue]
    exact ⟨rfl, rfl, rfl, rfl, rfl⟩

theorem blockThread_spec {s : Scheduler} {tid : Int} (h : tid ∈ s.runqueue) (reason : Str) :
    (s.blockThread tid reason).threads =
      s.threads.update tid (sleep reason) (fun _ => rfl) ∧
    (s.blockThread tid reason).runqueue = s.runqueue.erase tid ∧
    (s.blockThread tid reason).blocked = s.blocked ++ [tid] ∧
    (s.blockThread tid reason).currentThread =
      (if s.currentThread = some tid then none else s.currentThread) ∧
    (s.blockThread tid reason).idleThread = s.idleThread := by
  have hblock : s.blockThread tid reason = (s.suspend tid reason h).yieldCurrent tid :=
    dif_pos h
  rw [hblock]
  by_cases hcurrent : s.currentThread = some tid
  · have hyield : (s.suspend tid reason h).yieldCurrent tid =
        (s.suspend tid reason h).setCurrent none (by simp) := if_pos hcurrent
    rw [hyield, if_pos hcurrent]
    exact ⟨rfl, rfl, rfl, rfl, rfl⟩
  · have hyield : (s.suspend tid reason h).yieldCurrent tid = s.suspend tid reason h :=
      if_neg hcurrent
    rw [hyield, if_neg hcurrent]
    exact ⟨rfl, rfl, rfl, rfl, rfl⟩

theorem blockThread_of_not_mem {s : Scheduler} {tid : Int} (h : tid ∉ s.runqueue)
    (reason : Str) : s.blockThread tid reason = s :=
  dif_neg h

theorem wakeThread_spec {s : Scheduler} {tid : Int} (h : tid ∈ s.blocked) :
    (s.wakeThread tid).threads = s.threads.update tid wake (fun _ => rfl) ∧
    (s.wakeThread tid).runqueue = s.runqueue ++ [tid] ∧
    (s.wakeThread tid).blocked = s.blocked.erase tid ∧
    (s.wakeThread tid).currentThread = s.currentThread ∧
    (s.wakeThread tid).idleThread = s.idleThread := by
  unfold wakeThread
  rw [dif_pos h]
  exact ⟨rfl, rfl, rfl, rfl, rfl⟩

theorem wakeThread_of_not_mem {s : Scheduler} {tid : Int} (h : tid ∉ s.blocked) :
    s.wakeThread tid = s :=
  dif_neg h

theorem tick_perm (s : Scheduler) :
    (s.tick.runqueue ++ s.tick.blocked).Perm (s.runqueue ++ s.blocked) := by
  cases hcharged : s.charged with
  | none =>
      have hempty := charged_eq_none.mp hcharged
      obtain ⟨hqueue, hblocked, -⟩ := tick_of_empty hempty
      rw [hqueue, hblocked, hempty]
  | some tid =>
      have hticked := ticked hcharged
      rw [hticked.blocked, hticked.runqueue]
      apply List.Perm.append_right
      split
      · have hrotated := (List.perm_cons_erase (mem_of_charged hcharged)).symm
        exact (List.perm_append_singleton _ _).trans hrotated
      · exact List.Perm.refl _

theorem blockThread_perm (s : Scheduler) (tid : Int) (reason : Str) :
    ((s.blockThread tid reason).runqueue ++ (s.blockThread tid reason).blocked).Perm
      (s.runqueue ++ s.blocked) := by
  by_cases h : tid ∈ s.runqueue
  · obtain ⟨-, hqueue, hblocked, -⟩ := blockThread_spec h reason
    rw [hqueue, hblocked, ← List.append_assoc]
    have hmoved := (List.perm_append_singleton tid (s.runqueue.erase tid ++ s.blocked))
    exact hmoved.trans ((List.perm_cons_erase h).symm.append_right s.blocked)
  · rw [blockThread_of_not_mem h]

theorem wakeThread_perm (s : Scheduler) (tid : Int) :
    ((s.wakeThread tid).runqueue ++ (s.wakeThread tid).blocked).Perm
      (s.runqueue ++ s.blocked) := by
  by_cases h : tid ∈ s.blocked
  · obtain ⟨-, hqueue, hblocked, -⟩ := wakeThread_spec h
    rw [hqueue, hblocked, List.append_assoc, List.singleton_append]
    exact (List.perm_cons_erase h).symm.append_left s.runqueue
  · rw [wakeThread_of_not_mem h]

/-! ## States after a change of the table -/

theorem stateOf_of_update {s s' : Scheduler} {tid : Int} {f : Thread → Thread}
    {hf : ∀ thread, (f thread).tid = thread.tid} (h : s'.threads = s.threads.update tid f hf)
    {tid' : Int} (hne : tid' ≠ tid) : s'.stateOf tid' = s.stateOf tid' := by
  simp [stateOf, h, hne]

theorem stateOf_of_update_self {s s' : Scheduler} {tid : Int} {f : Thread → Thread}
    {hf : ∀ thread, (f thread).tid = thread.tid} (h : s'.threads = s.threads.update tid f hf)
    (htid : tid ∈ s.threads) {state : TaskState} (hstate : ∀ thread, (f thread).state = state) :
    s'.stateOf tid = some state := by
  obtain ⟨thread, hget⟩ := ThreadTable.mem_iff.mp htid
  simp [stateOf, h, hget, hstate]

/-! ## The invariant -/

namespace QueuesOk

variable {s : Scheduler}

theorem disjoint (h : QueuesOk s) {tid : Int} (hqueue : tid ∈ s.runqueue) :
    tid ∉ s.blocked := fun hblocked =>
  (List.nodup_append.mp h.nodup).2.2 tid hqueue tid hblocked rfl

theorem of_same (h : QueuesOk s) {s' : Scheduler} (hqueue : s'.runqueue = s.runqueue)
    (hblocked : s'.blocked = s.blocked)
    (hstate : ∀ tid ∈ s.threads, s'.stateOf tid = s.stateOf tid) : QueuesOk s' where
  nodup := by
    rw [hqueue, hblocked]
    exact h.nodup
  queued tid htid := by
    rw [hqueue] at htid
    rw [hstate tid (s.queued_mem htid)]
    exact h.queued tid htid
  sleeping tid htid := by
    rw [hblocked] at htid
    rw [hstate tid (s.blocked_mem htid)]
    exact h.sleeping tid htid

theorem addThread (h : QueuesOk s) {tid : Int} (htable : tid ∈ s.threads)
    (hawake : tid ∉ s.blocked) : QueuesOk (s.addThread tid htable) := by
  obtain ⟨hthreads, hqueue, hblocked, -⟩ := addThread_spec s htable
  have hself := stateOf_of_update_self hthreads htable (fun _ => rfl)
  refine { nodup := ?_, queued := fun tid' htid' => ?_, sleeping := fun tid' htid' => ?_ }
  · rw [hqueue, hblocked]
    split
    · exact h.nodup
    · rename_i hnew
      have hperm : (s.runqueue ++ [tid] ++ s.blocked).Perm (tid :: (s.runqueue ++ s.blocked)) :=
        by
          rw [List.append_assoc, List.singleton_append]
          exact List.perm_middle
      rw [hperm.nodup_iff, List.nodup_cons, List.mem_append]
      exact ⟨fun hmem => hmem.elim hnew hawake, h.nodup⟩
  · by_cases hne : tid' = tid
    · rw [hne]
      exact Or.inl hself
    · have hold : tid' ∈ s.runqueue := by
        rw [hqueue] at htid'
        split at htid'
        · exact htid'
        · exact (List.mem_append.mp htid').resolve_right fun hmem =>
            hne (List.mem_singleton.mp hmem)
      rw [stateOf_of_update hthreads hne]
      exact h.queued tid' hold
  · rw [hblocked] at htid'
    have hne : tid' ≠ tid := fun heq => hawake (heq ▸ htid')
    rw [stateOf_of_update hthreads hne]
    exact h.sleeping tid' htid'

theorem removeThread (h : QueuesOk s) (tid : Int) : QueuesOk (s.removeThread tid) where
  nodup := h.nodup.sublist (List.filter_sublist.append_right s.blocked)
  queued tid' htid' := h.queued tid' (List.mem_of_mem_filter htid')
  sleeping := h.sleeping

theorem blockThread (h : QueuesOk s) (tid : Int) (reason : Str) :
    QueuesOk (s.blockThread tid reason) := by
  by_cases hmem : tid ∈ s.runqueue
  · obtain ⟨hthreads, hqueue, hblocked, -⟩ := blockThread_spec hmem reason
    have hqueueNodup := (List.nodup_append.mp h.nodup).1
    refine { nodup := ?_, queued := fun tid' htid' => ?_, sleeping := fun tid' htid' => ?_ }
    · exact (blockThread_perm s tid reason).nodup_iff.mpr h.nodup
    · rw [hqueue] at htid'
      obtain ⟨hne, hold⟩ := hqueueNodup.mem_erase_iff.mp htid'
      rw [stateOf_of_update hthreads hne]
      exact h.queued tid' hold
    · by_cases hne : tid' = tid
      · rw [hne]
        exact stateOf_of_update_self hthreads (s.queued_mem hmem) fun _ => rfl
      · rw [hblocked] at htid'
        have hold := (List.mem_append.mp htid').resolve_right fun hin =>
          hne (List.mem_singleton.mp hin)
        rw [stateOf_of_update hthreads hne]
        exact h.sleeping tid' hold
  · rw [blockThread_of_not_mem hmem]
    exact h

theorem wakeThread (h : QueuesOk s) (tid : Int) : QueuesOk (s.wakeThread tid) := by
  by_cases hmem : tid ∈ s.blocked
  · obtain ⟨hthreads, hqueue, hblocked, -⟩ := wakeThread_spec hmem
    have hblockedNodup := (List.nodup_append.mp h.nodup).2.1
    refine { nodup := ?_, queued := fun tid' htid' => ?_, sleeping := fun tid' htid' => ?_ }
    · exact (wakeThread_perm s tid).nodup_iff.mpr h.nodup
    · by_cases hne : tid' = tid
      · rw [hne]
        exact Or.inl (stateOf_of_update_self hthreads (s.blocked_mem hmem) fun _ => rfl)
      · rw [hqueue] at htid'
        have hold := (List.mem_append.mp htid').resolve_right fun hin =>
          hne (List.mem_singleton.mp hin)
        rw [stateOf_of_update hthreads hne]
        exact h.queued tid' hold
    · rw [hblocked] at htid'
      obtain ⟨hne, hold⟩ := hblockedNodup.mem_erase_iff.mp htid'
      rw [stateOf_of_update hthreads hne]
      exact h.sleeping tid' hold
  · rw [wakeThread_of_not_mem hmem]
    exact h

theorem tick (h : QueuesOk s) : QueuesOk s.tick := by
  cases hcharged : s.charged with
  | none =>
      obtain ⟨hqueue, hblocked, -, -, hthreads⟩ := tick_of_empty (charged_eq_none.mp hcharged)
      refine h.of_same (hqueue.trans (charged_eq_none.mp hcharged).symm) hblocked ?_
      intro tid _
      rw [stateOf, hthreads]
      rfl
  | some tid =>
      have hticked := ticked hcharged
      refine { nodup := ?_, queued := fun tid' htid' => ?_, sleeping := fun tid' htid' => ?_ }
      · exact (tick_perm s).nodup_iff.mpr h.nodup
      · have hold : tid' ∈ s.runqueue := by
          rw [hticked.runqueue] at htid'
          split at htid'
          · exact mem_of_mem_rotated (mem_of_charged hcharged) htid'
          · exact htid'
        rcases hticked.stateOf tid' with hsame | ⟨-, hstate⟩
        · rw [hsame]
          exact h.queued tid' hold
        · exact hstate
      · rw [hticked.blocked] at htid'
        rcases hticked.stateOf tid' with hsame | ⟨hqueue, -⟩
        · rw [hsame]
          exact h.sleeping tid' htid'
        · exact (h.disjoint hqueue htid').elim

end QueuesOk

theorem queuesOk_step (s : Scheduler) (op : Op) (h : QueuesOk s) (hop : AddsAwake s op) :
    QueuesOk (s.step op) := by
  cases op with
  | init => exact h.of_same rfl rfl fun tid htid => by rw [stateOf, step, get_init_of_mem htid]; rfl
  | spawn pid name timeslice isKernelThread =>
      refine h.of_same rfl rfl fun tid htid => ?_
      rw [stateOf, step, get_spawn_of_mem htid]
      rfl
  | addThread tid =>
      by_cases htable : tid ∈ s.threads
      · rw [step_addThread htable]
        exact h.addThread htable hop
      · rw [step_addThread_of_not_mem htable]
        exact h
  | removeThread tid => exact h.removeThread tid
  | blockThread tid reason => exact h.blockThread tid reason
  | wakeThread tid => exact h.wakeThread tid
  | tick => exact h.tick

/-- Adding a blocked thread breaks the invariant: it stays blocked and is runnable. -/
theorem not_queuesOk_step (s : Scheduler) (op : Op) (hop : ¬ AddsAwake s op) :
    ¬ QueuesOk (s.step op) := by
  cases op with
  | addThread tid =>
      have hblocked : tid ∈ s.blocked := by simpa [AddsAwake] using hop
      have htable := s.blocked_mem hblocked
      intro h
      rw [step_addThread htable] at h
      obtain ⟨hthreads, -, hsame, -⟩ := addThread_spec s htable
      have hsleep := h.sleeping tid (hsame ▸ hblocked)
      rw [stateOf_of_update_self hthreads htable fun _ => rfl] at hsleep
      cases hsleep
  | init => exact absurd trivial hop
  | spawn pid name timeslice isKernelThread => exact absurd trivial hop
  | removeThread tid => exact absurd trivial hop
  | blockThread tid reason => exact absurd trivial hop
  | wakeThread tid => exact absurd trivial hop
  | tick => exact absurd trivial hop

/-- The lists stay in order throughout a run exactly when no call adds a thread that
is blocked at that moment. -/
theorem always_queuesOk_iff (ops : List Op) :
    Always step QueuesOk start ops ↔ Guarded step AddsAwake start ops :=
  always_iff_guarded queuesOk_step (fun s op _ => not_queuesOk_step s op) queuesOk_start

/-- A blocked thread that is added is queued and blocked at once. -/
theorem add_blocked_thread :
    let ops : List Op := [.init, .spawn 1 "a".toList 10 false, .addThread 2,
      .blockThread 2 "io_wait".toList, .addThread 2]
    ¬ Always step QueuesOk start ops ∧
    2 ∈ (run step start ops).runqueue ∧ 2 ∈ (run step start ops).blocked ∧
    (run step start ops).stateOf 2 = some .runnable := by
  intro ops
  have hlists : 2 ∈ (run step start ops).runqueue ∧ 2 ∈ (run step start ops).blocked := by
    decide
  refine ⟨fun h => ?_, hlists.1, hlists.2, by decide⟩
  have hend := always_iff_prefixes.mp h ops (List.prefix_refl ops)
  exact hend.disjoint hlists.1 hlists.2

end ComputeKernel.Sched.Scheduler
