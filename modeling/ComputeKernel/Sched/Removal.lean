import ComputeKernel.Sched.Queues

/-!
# Removing a thread

`remove_thread` filters the run queue and leaves the blocked list and the idle thread
alone.  A removed thread stays away exactly while neither of the two gives it back.
-/

namespace ComputeKernel.Sched.Scheduler

open Lib Lib.Run Tasks

def ReturnsOther (tid : Int) (s : Scheduler) (op : Op) : Prop :=
  op = .tick → s.tick.currentThread ≠ some tid

def KeepsAway (tid : Int) (s : Scheduler) : Op → Prop
  | .addThread t => t = tid → tid ∉ s.threads
  | .wakeThread t => t = tid → tid ∉ s.blocked
  | .tick => s.runqueue = [] → s.idleThread ≠ some tid
  | _ => True

/-- A call that may follow a removal: the thread is not added, the scheduler not set up anew. -/
def Later (tid : Int) : Op → Prop
  | .addThread t => t ≠ tid
  | .init => False
  | _ => True

/-- No list and no pointer that a call could take the thread from holds it. -/
structure Forgotten (tid : Int) (s : Scheduler) : Prop where
  queue : tid ∉ s.runqueue
  blocked : tid ∉ s.blocked
  idle : s.idleThread ≠ some tid

theorem not_mem_removeThread (s : Scheduler) (tid : Int) :
    tid ∉ (s.removeThread tid).runqueue := by
  change tid ∉ s.runqueue.filter (· ≠ tid)
  simp

section Steps

variable {s : Scheduler} {tid : Int}

theorem mem_addThread {t : Int} (h : t ∈ s.threads) :
    tid ∈ (s.addThread t h).runqueue ↔ tid ∈ s.runqueue ∨ t = tid := by
  obtain ⟨-, hqueue, -⟩ := addThread_spec s h
  rw [hqueue]
  split
  · rename_i hold
    constructor
    · exact Or.inl
    · rintro (hmem | rfl)
      · exact hmem
      · exact hold
  · rw [List.mem_append, List.mem_singleton, eq_comm (a := tid)]

theorem mem_wakeThread {t : Int} (h : t ∈ s.blocked) :
    tid ∈ (s.wakeThread t).runqueue ↔ tid ∈ s.runqueue ∨ t = tid := by
  obtain ⟨-, hqueue, -⟩ := wakeThread_spec h
  rw [hqueue, List.mem_append, List.mem_singleton, eq_comm (a := tid)]

theorem mem_of_mem_blockThread {t : Int} {reason : Str}
    (h : tid ∈ (s.blockThread t reason).runqueue) : tid ∈ s.runqueue := by
  by_cases ht : t ∈ s.runqueue
  · obtain ⟨-, hqueue, -⟩ := blockThread_spec ht reason
    rw [hqueue] at h
    exact List.mem_of_mem_erase h
  · rw [blockThread_of_not_mem ht] at h
    exact h

theorem mem_of_mem_tick (h : tid ∈ s.tick.runqueue) : tid ∈ s.runqueue := by
  cases hcharged : s.charged with
  | none =>
      obtain ⟨hqueue, -⟩ := tick_of_empty (charged_eq_none.mp hcharged)
      rw [hqueue] at h
      cases h
  | some t =>
      rw [(ticked hcharged).runqueue] at h
      split at h
      · exact mem_of_mem_rotated (mem_of_charged hcharged) h
      · exact h

theorem currentThread_tick :
    if s.runqueue = [] then s.tick.currentThread = s.idleThread
    else ∃ t ∈ s.runqueue, s.tick.currentThread = some t := by
  split
  · rename_i hempty
    obtain ⟨-, -, -, hcurrent, -⟩ := tick_of_empty hempty
    exact hcurrent
  · rename_i hne
    cases hcharged : s.charged with
    | none => exact absurd (charged_eq_none.mp hcharged) hne
    | some t =>
        have hmem := mem_of_charged hcharged
        have hcurrent := (ticked hcharged).currentThread
        split at hcurrent
        · have hne : s.runqueue.erase t ++ [t] ≠ [] := by simp
          obtain ⟨first, rest, hfirst⟩ := List.exists_cons_of_ne_nil hne
          rw [hfirst, List.head?_cons] at hcurrent
          refine ⟨first, mem_of_mem_rotated hmem ?_, hcurrent⟩
          rw [hfirst]
          exact List.mem_cons_self
        · exact ⟨t, hmem, hcurrent⟩

theorem returnsOther_tick (h : tid ∉ s.runqueue) :
    ReturnsOther tid s .tick ↔ KeepsAway tid s .tick := by
  have hcurrent := currentThread_tick (s := s)
  split at hcurrent
  · rename_i hempty
    simp [ReturnsOther, KeepsAway, hempty, hcurrent]
  · rename_i hne
    obtain ⟨t, ht, hsome⟩ := hcurrent
    have hother : t ≠ tid := by
      rintro rfl
      exact h ht
    simp [ReturnsOther, KeepsAway, hne, hsome, hother]

theorem keepsAway_iff (h : tid ∉ s.runqueue) (op : Op) :
    tid ∉ (s.step op).runqueue ∧ ReturnsOther tid s op ↔ KeepsAway tid s op := by
  cases op with
  | init => exact iff_of_true ⟨h, nofun⟩ trivial
  | spawn pid name timeslice isKernelThread => exact iff_of_true ⟨h, nofun⟩ trivial
  | addThread t =>
      have hother : ReturnsOther tid s (.addThread t) := nofun
      rw [and_iff_left hother]
      by_cases ht : t ∈ s.threads
      · rw [step_addThread ht, mem_addThread ht]
        constructor
        · exact fun hnot heq => absurd (Or.inr heq) hnot
        · rintro haway (hmem | rfl)
          · exact h hmem
          · exact haway rfl ht
      · rw [step_addThread_of_not_mem ht]
        refine iff_of_true h fun heq => ?_
        rwa [← heq]
  | removeThread t =>
      exact iff_of_true ⟨fun hmem => h (List.mem_of_mem_filter hmem), nofun⟩ trivial
  | blockThread t reason =>
      exact iff_of_true ⟨fun hmem => h (mem_of_mem_blockThread hmem), nofun⟩ trivial
  | wakeThread t =>
      have hother : ReturnsOther tid s (.wakeThread t) := nofun
      rw [and_iff_left hother]
      by_cases ht : t ∈ s.blocked
      · change tid ∉ (s.wakeThread t).runqueue ↔ _
        rw [mem_wakeThread ht]
        constructor
        · exact fun hnot heq => absurd (Or.inr heq) hnot
        · rintro haway (hmem | rfl)
          · exact h hmem
          · exact haway rfl ht
      · change tid ∉ (s.wakeThread t).runqueue ↔ _
        rw [wakeThread_of_not_mem ht]
        refine iff_of_true h fun heq => ?_
        rwa [← heq]
  | tick =>
      have hqueue : tid ∉ (s.step .tick).runqueue := fun hmem => h (mem_of_mem_tick hmem)
      rw [and_iff_right hqueue]
      exact returnsOther_tick h

theorem tick_keeps (s : Scheduler) :
    s.tick.blocked = s.blocked ∧ s.tick.idleThread = s.idleThread := by
  cases hcharged : s.charged with
  | none =>
      obtain ⟨-, hblocked, hidle, -⟩ := tick_of_empty (charged_eq_none.mp hcharged)
      exact ⟨hblocked, hidle⟩
  | some t => exact ⟨(ticked hcharged).blocked, (ticked hcharged).idleThread⟩

theorem mem_of_mem_blocked_step {op : Op} (h : tid ∈ (s.step op).blocked) :
    tid ∈ s.blocked ∨ tid ∈ s.runqueue := by
  cases op with
  | init => exact Or.inl h
  | spawn pid name timeslice isKernelThread => exact Or.inl h
  | addThread t =>
      by_cases ht : t ∈ s.threads
      · obtain ⟨-, -, hblocked, -⟩ := addThread_spec s ht
        rw [step_addThread ht, hblocked] at h
        exact Or.inl h
      · rw [step_addThread_of_not_mem ht] at h
        exact Or.inl h
  | removeThread t => exact Or.inl h
  | blockThread t reason =>
      have h : tid ∈ (s.blockThread t reason).blocked := h
      by_cases ht : t ∈ s.runqueue
      · obtain ⟨-, -, hblocked, -⟩ := blockThread_spec ht reason
        rw [hblocked, List.mem_append, List.mem_singleton] at h
        rcases h with hold | rfl
        · exact Or.inl hold
        · exact Or.inr ht
      · rw [blockThread_of_not_mem ht] at h
        exact Or.inl h
  | wakeThread t =>
      have h : tid ∈ (s.wakeThread t).blocked := h
      by_cases ht : t ∈ s.blocked
      · obtain ⟨-, -, hblocked, -⟩ := wakeThread_spec ht
        rw [hblocked] at h
        exact Or.inl (List.mem_of_mem_erase h)
      · rw [wakeThread_of_not_mem ht] at h
        exact Or.inl h
  | tick =>
      have h : tid ∈ s.tick.blocked := h
      rw [s.tick_keeps.1] at h
      exact Or.inl h

theorem idleThread_step (s : Scheduler) {op : Op} (hop : op ≠ .init) :
    (s.step op).idleThread = s.idleThread := by
  cases op with
  | init => exact absurd rfl hop
  | spawn pid name timeslice isKernelThread => rfl
  | addThread t =>
      by_cases ht : t ∈ s.threads
      · obtain ⟨-, -, -, -, hidle⟩ := addThread_spec s ht
        rw [step_addThread ht, hidle]
      · rw [step_addThread_of_not_mem ht]
  | removeThread t => rfl
  | blockThread t reason =>
      change (s.blockThread t reason).idleThread = _
      by_cases ht : t ∈ s.runqueue
      · exact (blockThread_spec ht reason).2.2.2.2
      · rw [blockThread_of_not_mem ht]
  | wakeThread t =>
      change (s.wakeThread t).idleThread = _
      by_cases ht : t ∈ s.blocked
      · exact (wakeThread_spec ht).2.2.2.2
      · rw [wakeThread_of_not_mem ht]
  | tick => exact s.tick_keeps.2

end Steps

namespace Forgotten

variable {s : Scheduler} {tid : Int}

/-- What nothing holds is brought back by a call for that thread only. -/
theorem keepsAway (h : Forgotten tid s) {op : Op} (hop : Later tid op) : KeepsAway tid s op := by
  cases op with
  | addThread t => exact fun heq => absurd heq hop
  | wakeThread t => exact fun _ => h.blocked
  | tick => exact fun _ => h.idle
  | init => trivial
  | spawn pid name timeslice isKernelThread => trivial
  | removeThread t => trivial
  | blockThread t reason => trivial

theorem step (h : Forgotten tid s) {op : Op} (hop : Later tid op) : Forgotten tid (s.step op) where
  queue := ((keepsAway_iff h.queue op).mpr (h.keepsAway hop)).1
  blocked := by
    intro hmem
    rcases mem_of_mem_blocked_step hmem with hold | hqueue
    · exact h.blocked hold
    · exact h.queue hqueue
  idle := by
    have hinit : op ≠ .init := by
      rintro rfl
      exact hop
    rw [idleThread_step s hinit]
    exact h.idle

end Forgotten

/-- After a removal the thread stays out of the run queue and no tick returns it exactly
when no later call adds it, wakes it while it sleeps, or ticks an empty queue whose idle
thread it is.  If it is neither asleep nor the idle thread when it is removed, calls for
other threads, blocking, waking and ticks are never such. -/
theorem removed_stays_away_iff (s : Scheduler) (tid : Int) (ops : List Op) :
    (Always step (fun s => tid ∉ s.runqueue) (s.removeThread tid) ops ∧
        Guarded step (ReturnsOther tid) (s.removeThread tid) ops ↔
      Guarded step (KeepsAway tid) (s.removeThread tid) ops) ∧
    (tid ∉ s.blocked → s.idleThread ≠ some tid → (∀ op ∈ ops, Later tid op) →
      Guarded step (KeepsAway tid) (s.removeThread tid) ops) := by
  constructor
  · refine always_and_guarded_iff (I := fun _ => True) (fun _ _ _ => trivial) ?_ ?_ trivial
      (not_mem_removeThread s tid)
    · intro s op _ hqueue hop
      exact (keepsAway_iff hqueue op).mpr hop
    · intro s op _ hqueue hop hother haway
      exact hop ((keepsAway_iff hqueue op).mp ⟨haway, hother⟩)
  · intro hblocked hidle hlater
    have hforgotten : Forgotten tid (s.removeThread tid) :=
      { queue := not_mem_removeThread s tid, blocked := hblocked, idle := hidle }
    have hlaters : Guarded step (fun _ op => Later tid op) (s.removeThread tid) ops :=
      guarded_of_forall (fun op hop _ => hlater op hop) _
    exact guarded_of_invariant (fun _ _ h hop => h.step hop) (fun _ _ h hop => h.keepsAway hop)
      hforgotten hlaters

/-- A thread removed while it sleeps is woken back into the run queue, and the idle
thread is returned by the tick after its removal. -/
theorem removed_thread_returns :
    let ops : List Op := [.init, .spawn 1 "a".toList 10 false, .addThread 2,
      .blockThread 2 "io_wait".toList]
    let s := run step start ops
    2 ∈ (run step (s.removeThread 2) [.wakeThread 2]).runqueue ∧
    ¬ Always step (fun s => 2 ∉ s.runqueue) (s.removeThread 2) [.wakeThread 2] ∧
    (run step (s.removeThread 1) [.tick]).currentThread = some 1 ∧
    ¬ Guarded step (ReturnsOther 1) (s.removeThread 1) [.tick] := by
  intro ops s
  have hwoken : 2 ∈ (run step (s.removeThread 2) [.wakeThread 2]).runqueue := by decide
  have hticked : (run step (s.removeThread 1) [.tick]).currentThread = some 1 := by decide
  exact ⟨hwoken, fun h => h.2 hwoken, hticked, fun h => h.1 rfl hticked⟩

end ComputeKernel.Sched.Scheduler
