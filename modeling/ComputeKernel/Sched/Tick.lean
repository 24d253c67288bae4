import ComputeKernel.Sched.Scheduler

/-!
# What a tick does

`Ticked s s' tid` lists everything one tick that charges `tid` does to the lists,
the current thread, the counters and the threads.  Schedules and invariants are
derived from it and do not unfold the tick again.
-/

namespace ComputeKernel.Sched.Scheduler

open Lib Tasks

/-- Effect of a tick that charges `tid`: with one tick left or less the thread goes
to the back and the first of the queue starts a full timeslice. -/
structure Ticked (s s' : Scheduler) (tid : Int) : Prop where
  runqueue : s'.runqueue =
    if s.left tid ≤ 1 then s.runqueue.erase tid ++ [tid] else s.runqueue
  blocked : s'.blocked = s.blocked
  idleThread : s'.idleThread = s.idleThread
  currentThread : s'.currentThread =
    if s.left tid ≤ 1 then (s.runqueue.erase tid ++ [tid]).head? else some tid
  contextSwitches : s'.contextSwitches =
    if s.left tid ≤ 1 then s.contextSwitches + 1 else s.contextSwitches
  timeslice : ∀ t, s'.timeslice t = s.timeslice t
  remaining : ∀ t, s'.currentThread = some t →
    s'.remaining t = if s.left tid ≤ 1 then s.timeslice t else s.left tid - 1
  stateOf : ∀ t, s'.stateOf t = s.stateOf t ∨
    (t ∈ s.runqueue ∧ (s'.stateOf t = some .runnable ∨ s'.stateOf t = some .running))

structure Picked (s s' : Scheduler) (tid : Int) : Prop where
  runqueue : s'.runqueue = s.runqueue
  blocked : s'.blocked = s.blocked
  idleThread : s'.idleThread = s.idleThread
  currentThread : s'.currentThread = some tid
  contextSwitches : s'.contextSwitches = s.contextSwitches
  timeslice : ∀ t, s'.timeslice t = s.timeslice t
  remaining : s'.remaining tid = s.left tid
  stateOf : ∀ t, s'.stateOf t = s.stateOf t ∨ (t = tid ∧ s'.stateOf t = some .running)

theorem charged_eq (s : Scheduler) :
    s.charged = if s.CurrentQueued then s.currentThread else s.runqueue.head? := by
  unfold charged pick
  by_cases hempty : s.runqueue = []
  · simp [hempty, CurrentQueued]
  · by_cases hqueued : s.CurrentQueued
    · simp [hempty, hqueued]
    · simp only [hempty, hqueued, dif_neg, not_false_eq_true, if_false, switchTo]
      exact (List.head?_eq_some_head hempty).symm

theorem mem_of_charged {s : Scheduler} {tid : Int} (h : s.charged = some tid) :
    tid ∈ s.runqueue := by
  rw [charged_eq] at h
  split at h
  · rename_i hqueued
    obtain ⟨tid', hmem, hcurrent⟩ := hqueued
    rw [hcurrent] at h
    cases h
    exact hmem
  · exact List.mem_of_head? h

theorem charged_eq_none {s : Scheduler} : s.charged = none ↔ s.runqueue = [] := by
  constructor
  · intro h
    rw [charged_eq] at h
    split at h
    · rename_i hqueued
      obtain ⟨tid, -, hcurrent⟩ := hqueued
      rw [hcurrent] at h
      cases h
    · exact List.head?_eq_none_iff.mp h
  · intro h
    simp [charged, h]

theorem switchTo_spec {s : Scheduler} {tid : Int} (h : tid ∈ s.threads) :
    (∀ t, (s.switchTo tid h).timeslice t = s.timeslice t) ∧
    (s.switchTo tid h).remaining tid = s.timeslice tid ∧
    (∀ t, (s.switchTo tid h).stateOf t = s.stateOf t ∨
      (t = tid ∧ (s.switchTo tid h).stateOf t = some .running)) := by
  unfold switchTo
  refine ⟨fun t => ?_, ?_, fun t => ?_⟩
  · exact timeslice_updateThread _ _ t dispatch (fun _ => rfl) fun _ => rfl
  · exact remaining_updateThread_self _ _ dispatch (fun _ => rfl) (fun ts _ => ts) (fun _ => rfl) h
  · exact stateOf_updateThread_cases _ _ t dispatch (fun _ => rfl) .running (fun _ => rfl) h

theorem picked {s : Scheduler} {tid : Int} (h : s.charged = some tid) :
    Picked s s.pick tid := by
  have hmem := mem_of_charged h
  have hempty : s.runqueue ≠ [] := List.ne_nil_of_mem hmem
  rw [charged_eq] at h
  unfold pick
  rw [dif_neg hempty]
  by_cases hqueued : s.CurrentQueued
  · rw [if_pos hqueued] at h ⊢
    exact
      { runqueue := rfl
        blocked := rfl
        idleThread := rfl
        currentThread := h
        contextSwitches := rfl
        timeslice := fun _ => rfl
        remaining := by rw [left, if_pos h]
        stateOf := fun _ => Or.inl rfl }
  · rw [if_neg hqueued] at h ⊢
    obtain rfl : s.runqueue.head hempty = tid := by
      rw [List.head?_eq_some_head hempty] at h
      exact Option.some.inj h
    have hother : s.currentThread ≠ some (s.runqueue.head hempty) := fun hcurrent =>
      hqueued ⟨_, List.head_mem hempty, hcurrent⟩
    obtain ⟨hslice, hremaining, hstate⟩ := switchTo_spec (s.queued_mem hmem)
    exact
      { runqueue := rfl
        blocked := rfl
        idleThread := rfl
        currentThread := rfl
        contextSwitches := rfl
        timeslice := hslice
        remaining := by
          rw [left, if_neg hother]
          exact hremaining
        stateOf := hstate }

theorem switchToFirst_of_head {s : Scheduler} {first : Int} {rest : List Int}
    (hqueue : s.runqueue = first :: rest) :
    s.switchToFirst.runqueue = s.runqueue ∧ s.switchToFirst.blocked = s.blocked ∧
    s.switchToFirst.idleThread = s.idleThread ∧
    s.switchToFirst.currentThread = some first ∧
    s.switchToFirst.contextSwitches = s.contextSwitches + 1 ∧
    (∀ t, s.switchToFirst.timeslice t = s.timeslice t) ∧
    s.switchToFirst.remaining first = s.timeslice first ∧
    (∀ t, s.switchToFirst.stateOf t = s.stateOf t ∨
      (t = first ∧ s.switchToFirst.stateOf t = some .running)) := by
  have hempty : s.runqueue ≠ [] := by simp [hqueue]
  obtain rfl : s.runqueue.head hempty = first := by simp [hqueue]
  have hswitched := switchTo_spec (s.queued_mem (List.head_mem hempty))
  unfold switchToFirst
  rw [dif_neg hempty]
  exact ⟨rfl, rfl, rfl, rfl, rfl, hswitched⟩

theorem rotate_of_mem {s : Scheduler} {tid : Int} (hmem : tid ∈ s.runqueue) :
    (s.rotate tid).runqueue = s.runqueue.erase tid ++ [tid] ∧
    (s.rotate tid).blocked = s.blocked ∧
    (s.rotate tid).idleThread = s.idleThread ∧
    (s.rotate tid).contextSwitches = s.contextSwitches ∧
    (∀ t, (s.rotate tid).timeslice t = s.timeslice t) ∧
    (∀ t, (s.rotate tid).stateOf t = s.stateOf t ∨
      (t = tid ∧ (s.rotate tid).stateOf t = some .runnable)) := by
  have htable := s.queued_mem hmem
  have hrotate : s.rotate tid =
      (s.updateThread tid preempt fun _ => rfl).setQueues (s.runqueue.erase tid ++ [tid])
        s.blocked (fun _ h => h.imp_left (mem_of_mem_rotated hmem)) := dif_pos hmem
  rw [hrotate]
  refine ⟨rfl, rfl, rfl, rfl, fun t => ?_, fun t => ?_⟩
  · exact timeslice_updateThread _ _ t preempt (fun _ => rfl) fun _ => rfl
  · exact stateOf_updateThread_cases _ _ t preempt (fun _ => rfl) .runnable (fun _ => rfl) htable

theorem Picked.charge_spec {s s' : Scheduler} {tid : Int} (h : Picked s s' tid)
    (hmem : tid ∈ s.runqueue) :
    s'.charge.runqueue = s.runqueue ∧ s'.charge.blocked = s.blocked ∧
    s'.charge.idleThread = s.idleThread ∧ s'.charge.currentThread = some tid ∧
    s'.charge.contextSwitches = s.contextSwitches ∧
    (∀ t, s'.charge.timeslice t = s.timeslice t) ∧
    s'.charge.remaining tid = s.left tid - 1 ∧ ∀ t, s'.charge.stateOf t = s'.stateOf t := by
  have hmem' : tid ∈ s'.runqueue := h.runqueue ▸ hmem
  unfold charge
  rw [h.currentThread]
  refine ⟨h.runqueue, h.blocked, h.idleThread, h.currentThread, h.contextSwitches,
    fun t => ?_, ?_, fun t => ?_⟩
  · rw [← h.timeslice t]
    exact timeslice_updateThread _ _ t takeTick (fun _ => rfl) fun _ => rfl
  · rw [← h.remaining]
    exact remaining_updateThread_self _ _ takeTick (fun _ => rfl) (fun _ r => r - 1) (fun _ => rfl)
      (s'.queued_mem hmem')
  · exact stateOf_updateThread _ _ t takeTick (fun _ => rfl) fun _ => rfl

theorem Picked.ticked {s s' : Scheduler} {tid : Int} (h : Picked s s' tid)
    (hmem : tid ∈ s.runqueue) : Ticked s s'.charge.expire tid := by
  obtain ⟨hqueue, hblocked, hidle, hcurrent, hswitches, hslice, hremaining, hstate⟩ :=
    h.charge_spec hmem
  generalize s'.charge = c at hqueue hblocked hidle hcurrent hswitches hslice hremaining hstate ⊢
  have hkept : ∀ t, s'.stateOf t = s.stateOf t ∨
      (t ∈ s.runqueue ∧ (s'.stateOf t = some .runnable ∨ s'.stateOf t = some .running)) :=
    fun t => (h.stateOf t).imp_right fun ⟨ht, hrunning⟩ => ⟨ht ▸ hmem, Or.inr hrunning⟩
  unfold expire
  simp only [hcurrent, hremaining]
  by_cases hleft : s.left tid ≤ 1
  · have hexpired : s.left tid - 1 ≤ 0 := by omega
    rw [if_pos hexpired]
    have hcmem : tid ∈ c.runqueue := hqueue ▸ hmem
    obtain ⟨hrqueue, hrblocked, hridle, hrswitches, hrslice, hrstate⟩ := rotate_of_mem hcmem
    rw [hqueue] at hrqueue
    obtain ⟨first, rest, hfirst⟩ : ∃ first rest,
        s.runqueue.erase tid ++ [tid] = first :: rest :=
      List.exists_cons_of_ne_nil (by simp)
    obtain ⟨hfqueue, hfblocked, hfidle, hfcurrent, hfswitches, hfslice, hfremaining, hfstate⟩ :=
      switchToFirst_of_head (hrqueue.trans hfirst)
    have hfmem : first ∈ s.runqueue := by
      apply mem_of_mem_rotated hmem
      rw [hfirst]
      exact List.mem_cons_self
    refine
      { runqueue := by rw [if_pos hleft, hfqueue, hrqueue]
        blocked := by rw [hfblocked, hrblocked, hblocked]
        idleThread := by rw [hfidle, hridle, hidle]
        currentThread := by rw [if_pos hleft, hfcurrent, hfirst, List.head?_cons]
        contextSwitches := by rw [if_pos hleft, hfswitches, hrswitches, hswitches]
        timeslice := fun t => by rw [hfslice, hrslice, hslice]
        remaining := fun t ht => ?_
        stateOf := fun t => ?_ }
    · rw [hfcurrent] at ht
      obtain rfl := Option.some.inj ht
      rw [if_pos hleft, hfremaining, hrslice, hslice]
    · rcases hfstate t with hsame | ⟨rfl, hrunning⟩
      · rcases hrstate t with hsame' | ⟨rfl, hrunnable⟩
        · rw [hsame, hsame', hstate]
          exact hkept t
        · rw [hsame]
          exact Or.inr ⟨hmem, Or.inl hrunnable⟩
      · exact Or.inr ⟨hfmem, Or.inr hrunning⟩
  · have hrunning : ¬ s.left tid - 1 ≤ 0 := by omega
    rw [if_neg hrunning]
    refine
      { runqueue := by rw [if_neg hleft, hqueue]
        blocked := hblocked
        idleThread := hidle
        currentThread := by rw [if_neg hleft, hcurrent]
        contextSwitches := by rw [if_neg hleft, hswitches]
        timeslice := hslice
        remaining := fun t ht => ?_
        stateOf := fun t => by rw [hstate]; exact hkept t }
    rw [hcurrent] at ht
    obtain rfl := Option.some.inj ht
    rw [if_neg hleft, hremaining]

theorem ticked {s : Scheduler} {tid : Int} (h : s.charged = some tid) :
    Ticked s s.tick tid := by
  have hmem := mem_of_charged h
  have hempty : s.runqueue ≠ [] := List.ne_nil_of_mem hmem
  unfold tick
  rw [if_neg hempty]
  have hpicked : Picked { s with tickCount := s.tickCount + 1 }
      (pick { s with tickCount := s.tickCount + 1 }) tid := by
    apply picked
    rw [charged_eq] at h ⊢
    exact h
  have hticked := hpicked.ticked hmem
  exact
    { runqueue := hticked.runqueue
      blocked := hticked.blocked
      idleThread := hticked.idleThread
      currentThread := hticked.currentThread
      contextSwitches := hticked.contextSwitches
      timeslice := hticked.timeslice
      remaining := hticked.remaining
      stateOf := hticked.stateOf }

theorem tick_of_empty {s : Scheduler} (h : s.runqueue = []) :
    s.tick.runqueue = [] ∧ s.tick.blocked = s.blocked ∧
    s.tick.idleThread = s.idleThread ∧ s.tick.currentThread = s.idleThread ∧
    s.tick.threads = s.threads := by
  unfold tick
  rw [if_pos h]
  exact ⟨h, rfl, rfl, rfl, rfl⟩

end ComputeKernel.Sched.Scheduler
