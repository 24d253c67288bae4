import ComputeKernel.Sched.Fairness

/-!
# The running thread

A thread is marked as running when a tick picks it and loses the mark when it
expires, blocks or is added again.  Removal from the run queue leaves the mark and
the current thread as they are, and that is the only call that does.
-/

namespace ComputeKernel.Sched.Scheduler

open Lib Lib.Run Tasks

structure OneRunning (s : Scheduler) : Prop where
  unique : ∀ tid tid', s.stateOf tid = some .running → s.stateOf tid' = some .running →
    tid = tid'
  current : ∀ tid, s.stateOf tid = some .running → s.currentThread = some tid
  queued : ∀ tid, s.stateOf tid = some .running → tid ∈ s.runqueue

def SparesRunning (s : Scheduler) : Op → Prop
  | .removeThread tid => s.stateOf tid ≠ some .running
  | _ => True

theorem oneRunning_of_current {s : Scheduler}
    (h : ∀ tid, s.stateOf tid = some .running → s.currentThread = some tid ∧ tid ∈ s.runqueue) :
    OneRunning s where
  unique := by
    intro tid tid' htid htid'
    have hsame : some tid = some tid' := by rw [← (h tid htid).1, (h tid' htid').1]
    exact Option.some.inj hsame
  current := fun tid htid => (h tid htid).1
  queued := fun tid htid => (h tid htid).2

theorem oneRunning_start : OneRunning start := by
  apply oneRunning_of_current
  intro tid hrunning
  cases hrunning

/-! ## Calls other than the tick -/

theorem running_of_update {s s' : Scheduler} {tid : Int} {f : Thread → Thread}
    {hf : ∀ thread, (f thread).tid = thread.tid} (h : s'.threads = s.threads.update tid f hf)
    {state : TaskState} (hstate : ∀ thread, (f thread).state = state)
    (hne : state ≠ .running) (tid' : Int) (hrunning : s'.stateOf tid' = some .running) :
    tid' ≠ tid ∧ s.stateOf tid' = some .running := by
  by_cases heq : tid' = tid
  · subst heq
    by_cases htable : tid' ∈ s.threads
    · rw [stateOf_of_update_self h htable hstate] at hrunning
      exact absurd (Option.some.inj hrunning) hne
    · have hnone : s.threads.get tid' = none := Dict.get?_eq_none.mpr htable
      simp [stateOf, h, hnone] at hrunning
  · rw [stateOf_of_update h heq] at hrunning
    exact ⟨heq, hrunning⟩

namespace OneRunning

variable {s : Scheduler}

theorem of_stateOf (h : OneRunning s) {s' : Scheduler}
    (hstate : ∀ tid, s'.stateOf tid = some .running → s.stateOf tid = some .running)
    (hcurrent : ∀ tid, s'.stateOf tid = some .running → s.currentThread = some tid →
      s'.currentThread = some tid)
    (hqueue : ∀ tid, s'.stateOf tid = some .running → tid ∈ s.runqueue → tid ∈ s'.runqueue) :
    OneRunning s' := by
  apply oneRunning_of_current
  intro tid hrunning
  have hold := hstate tid hrunning
  constructor
  · exact hcurrent tid hrunning (h.current tid hold)
  · exact hqueue tid hrunning (h.queued tid hold)

theorem init (h : OneRunning s) : OneRunning s.init := by
  apply h.of_stateOf
  · intro tid hrunning
    have hthreads : s.init.threads = (s.spawn 0 "[idle]".toList 1 true).threads.update
        (s.threads.spawn 0 "[idle]".toList 1 true).1 makeRunnable fun _ => rfl := rfl
    obtain ⟨hne, hspawned⟩ :=
      running_of_update hthreads (fun _ => rfl) (by decide) tid hrunning
    rw [stateOf] at hspawned ⊢
    change (ThreadTable.get (s.threads.spawn 0 _ 1 true).2 tid).map _ = _ at hspawned
    rwa [ThreadTable.get_spawn, if_neg hne] at hspawned
  · exact fun tid _ hcurrent => hcurrent
  · exact fun tid _ hqueue => hqueue

theorem spawn (h : OneRunning s) (pid : Int) (name : Str) (timeslice : Int)
    (isKernelThread : Bool) : OneRunning (s.spawn pid name timeslice isKernelThread) := by
  apply h.of_stateOf
  · intro tid hrunning
    rw [stateOf] at hrunning ⊢
    change (ThreadTable.get (s.threads.spawn _ _ _ _).2 tid).map _ = _ at hrunning
    rw [ThreadTable.get_spawn] at hrunning
    split at hrunning
    · -- a new thread has state `new`
      cases hrunning
    · exact hrunning
  · exact fun tid _ hcurrent => hcurrent
  · exact fun tid _ hqueue => hqueue

theorem addThread (h : OneRunning s) {tid : Int} (htable : tid ∈ s.threads) :
    OneRunning (s.addThread tid htable) := by
  obtain ⟨hthreads, hqueue, -, hcurrent, -⟩ := addThread_spec s htable
  apply h.of_stateOf
  · intro tid' hrunning
    exact (running_of_update hthreads (fun _ => rfl) (by decide) tid' hrunning).2
  · intro tid' _ hold
    rw [hcurrent]
    exact hold
  · intro tid' _ hmem
    rw [hqueue]
    split
    · exact hmem
    · exact List.mem_append_left _ hmem

theorem removeThread (h : OneRunning s) {tid : Int} (hspared : s.stateOf tid ≠ some .running) :
    OneRunning (s.removeThread tid) := by
  apply h.of_stateOf
  · exact fun tid' hrunning => hrunning
  · exact fun tid' _ hcurrent => hcurrent
  · intro tid' hrunning hmem
    apply List.mem_filter.mpr
    refine ⟨hmem, decide_eq_true ?_⟩
    intro heq
    rw [heq] at hrunning
    exact hspared hrunning

theorem blockThread (h : OneRunning s) (tid : Int) (reason : Str) :
    OneRunning (s.blockThread tid reason) := by
  by_cases hmem : tid ∈ s.runqueue
  · obtain ⟨hthreads, hqueue, -, hcurrent, -⟩ := blockThread_spec hmem reason
    have hsleep : ∀ thread : Thread, (sleep reason thread).state = .sleepInt := fun _ => rfl
    have hkept := running_of_update hthreads hsleep (by decide)
    apply h.of_stateOf
    · exact fun tid' hrunning => (hkept tid' hrunning).2
    · intro tid' hrunning hold
      have hne := (hkept tid' hrunning).1
      rw [hcurrent, hold, if_neg]
      intro heq
      exact hne (Option.some.inj heq)
    · intro tid' hrunning hold
      rw [hqueue]
      exact (List.mem_erase_of_ne (hkept tid' hrunning).1).mpr hold
  · rw [blockThread_of_not_mem hmem]
    exact h

theorem wakeThread (h : OneRunning s) (tid : Int) : OneRunning (s.wakeThread tid) := by
  by_cases hmem : tid ∈ s.blocked
  · obtain ⟨hthreads, hqueue, -, hcurrent, -⟩ := wakeThread_spec hmem
    apply h.of_stateOf
    · intro tid' hrunning
      exact (running_of_update hthreads (fun _ => rfl) (by decide) tid' hrunning).2
    · intro tid' _ hold
      rw [hcurrent]
      exact hold
    · intro tid' _ hold
      rw [hqueue]
      exact List.mem_append_left _ hold
  · rw [wakeThread_of_not_mem hmem]
    exact h

end OneRunning

/-! ## The tick -/

def OnlyCurrentRuns (s : Scheduler) : Prop :=
  ∀ tid, s.stateOf tid = some .running → s.currentThread = some tid

theorem OneRunning.pick {s : Scheduler} (h : OneRunning s) {tid : Int}
    (hcharged : s.charged = some tid) : OnlyCurrentRuns s.pick := by
  have hpicked := picked hcharged
  intro tid' hrunning
  rw [hpicked.currentThread]
  rcases hpicked.stateOf tid' with hsame | ⟨heq, -⟩
  · rw [hsame] at hrunning
    have hcurrent := h.current tid' hrunning
    rw [charged_eq, if_pos ⟨tid', h.queued tid' hrunning, hcurrent⟩, hcurrent] at hcharged
    exact hcharged.symm
  · rw [heq]

theorem OnlyCurrentRuns.charge {s : Scheduler} (h : OnlyCurrentRuns s) :
    OnlyCurrentRuns s.charge := by
  intro tid hrunning
  unfold Scheduler.charge at hrunning ⊢
  cases hcurrent : s.currentThread with
  | none =>
      simp only [hcurrent] at hrunning ⊢
      rw [← hcurrent]
      exact h tid hrunning
  | some old =>
      simp only [hcurrent] at hrunning ⊢
      rw [stateOf_updateThread _ _ _ takeTick (fun _ => rfl) fun _ => rfl] at hrunning
      change s.currentThread = some tid
      exact h tid hrunning

theorem rotate_threads (s : Scheduler) (tid : Int) :
    (s.rotate tid).threads = s.threads.update tid preempt fun _ => rfl := by
  unfold rotate
  dsimp only
  split
  · rfl
  · rfl

theorem charge_lists (s : Scheduler) :
    s.charge.currentThread = s.currentThread ∧ s.charge.runqueue = s.runqueue := by
  unfold charge
  split
  · exact ⟨rfl, rfl⟩
  · exact ⟨rfl, rfl⟩

theorem OnlyCurrentRuns.expire {s : Scheduler} (h : OnlyCurrentRuns s) {old : Int}
    (hcurrent : s.currentThread = some old) (hmem : old ∈ s.runqueue) :
    OnlyCurrentRuns s.expire := by
  unfold Scheduler.expire
  simp only [hcurrent]
  split
  · have hnone : ∀ tid, (s.rotate old).stateOf tid ≠ some .running := by
      intro tid hrunning
      obtain ⟨hne, hold⟩ :=
        running_of_update (rotate_threads s old) (fun _ => rfl) (by decide) tid hrunning
      rw [h tid hold] at hcurrent
      exact hne (Option.some.inj hcurrent)
    obtain ⟨first, rest, hfirst⟩ : ∃ first rest, (s.rotate old).runqueue = first :: rest := by
      rw [(rotate_of_mem hmem).1]
      exact List.exists_cons_of_ne_nil (by simp)
    obtain ⟨-, -, -, hcurrent', -, -, -, hstate⟩ := switchToFirst_of_head hfirst
    intro tid hrunning
    rw [hcurrent']
    rcases hstate tid with hsame | ⟨heq, -⟩
    · rw [hsame] at hrunning
      exact absurd hrunning (hnone tid)
    · rw [heq]
  · exact h

theorem OneRunning.onlyCurrentRuns_tick {s : Scheduler} (h : OneRunning s) {tid : Int}
    (hcharged : s.charged = some tid) : OnlyCurrentRuns s.tick := by
  have hempty : s.runqueue ≠ [] := List.ne_nil_of_mem (mem_of_charged hcharged)
  unfold Scheduler.tick
  dsimp only
  rw [if_neg hempty]
  -- counting the tick changes neither the lists nor the threads
  have hcounted : OneRunning { s with tickCount := s.tickCount + 1 } :=
    ⟨h.unique, h.current, h.queued⟩
  have hcharged' : charged { s with tickCount := s.tickCount + 1 } = some tid := by
    rw [charged_eq] at hcharged ⊢
    exact hcharged
  have hpicked := picked hcharged'
  have hcharge := charge_lists (Scheduler.pick { s with tickCount := s.tickCount + 1 })
  apply (hcounted.pick hcharged').charge.expire
  · rw [hcharge.1]
    exact hpicked.currentThread
  · rw [hcharge.2, hpicked.runqueue]
    exact mem_of_charged hcharged'

theorem OneRunning.tick {s : Scheduler} (h : OneRunning s) : OneRunning s.tick := by
  cases hcharged : s.charged with
  | none =>
      have hempty := charged_eq_none.mp hcharged
      obtain ⟨-, -, -, -, hthreads⟩ := tick_of_empty hempty
      apply oneRunning_of_current
      intro tid hrunning
      rw [stateOf, hthreads] at hrunning
      have hqueued := h.queued tid hrunning
      rw [hempty] at hqueued
      cases hqueued
  | some tid =>
      have hticked := ticked hcharged
      apply oneRunning_of_current
      intro tid' hrunning
      have hcurrent := h.onlyCurrentRuns_tick hcharged tid' hrunning
      refine ⟨hcurrent, ?_⟩
      rw [hticked.currentThread] at hcurrent
      rw [hticked.runqueue]
      split at hcurrent
      · rw [if_pos ‹_›]
        exact List.mem_of_head? hcurrent
      · rw [if_neg ‹_›]
        cases hcurrent
        exact mem_of_charged hcharged

/-! ## Runs -/

theorem oneRunning_step (s : Scheduler) (op : Op) (h : OneRunning s)
    (hop : SparesRunning s op) : OneRunning (s.step op) := by
  cases op with
  | init => exact h.init
  | spawn pid name timeslice isKernelThread => exact h.spawn pid name timeslice isKernelThread
  | addThread tid =>
      by_cases htable : tid ∈ s.threads
      · rw [step_addThread htable]
        exact h.addThread htable
      · rw [step_addThread_of_not_mem htable]
        exact h
  | removeThread tid => exact h.removeThread hop
  | blockThread tid reason => exact h.blockThread tid reason
  | wakeThread tid => exact h.wakeThread tid
  | tick => exact h.tick

/-- A removed thread that was running keeps the mark and is not queued any more. -/
theorem not_oneRunning_step (s : Scheduler) (op : Op) (hop : ¬ SparesRunning s op) :
    ¬ OneRunning (s.step op) := by
  cases op with
  | removeThread tid =>
      have hrunning : s.stateOf tid = some .running := by
        by_contra hother
        exact hop hother
      intro h
      have hmem := h.queued tid hrunning
      have hfiltered := (List.mem_filter.mp hmem).2
      exact of_decide_eq_true hfiltered rfl
  | init => exact absurd trivial hop
  | spawn pid name timeslice isKernelThread => exact absurd trivial hop
  | addThread tid => exact absurd trivial hop
  | blockThread tid reason => exact absurd trivial hop
  | wakeThread tid => exact absurd trivial hop
  | tick => exact absurd trivial hop

/-- At most one thread runs throughout a run, current and queued, exactly when no call
removes the thread that is running at that moment. -/
theorem always_oneRunning_iff (ops : List Op) :
    Always step OneRunning start ops ↔ Guarded step SparesRunning start ops :=
  always_iff_guarded oneRunning_step (fun s op _ => not_oneRunning_step s op) oneRunning_start

/-- The running thread is removed, and the next tick starts another. -/
theorem two_running :
    let ops : List Op := [.init, .spawn 1 "a".toList 10 false, .spawn 1 "b".toList 10 false,
      .addThread 2, .addThread 3, .tick, .removeThread 2, .tick]
    Guarded step AddsFresh start ops ∧ ¬ Always step OneRunning start ops ∧
    (run step start ops).stateOf 2 = some .running ∧
    (run step start ops).stateOf 3 = some .running := by
  intro ops
  have hfirst : (run step start ops).stateOf 2 = some .running := by decide
  have hsecond : (run step start ops).stateOf 3 = some .running := by decide
  refine ⟨by decide, fun h => ?_, hfirst, hsecond⟩
  have hend := always_iff_prefixes.mp h ops (List.prefix_refl ops)
  have hsame := hend.unique 2 3 hfirst hsecond
  cases hsame

end ComputeKernel.Sched.Scheduler
