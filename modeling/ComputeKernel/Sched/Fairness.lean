import ComputeKernel.Sched.Queues
import ComputeKernel.Sched.Schedule
import Mathlib.Algebra.Order.BigOperators.Group.List
import Mathlib.Algebra.Order.Group.Nat

/-!
# No queued thread starves

The ticks still due to the threads ahead of a queued thread are a measure that every
tick lowers by one and no other call raises, as long as the thread itself is neither
blocked nor removed.
-/

namespace ComputeKernel.Sched.Scheduler

open Lib Lib.Run Tasks

def AddsFresh (s : Scheduler) : Op → Prop
  | .addThread tid => s.stateOf tid = some .new
  | _ => True

def Spares (tid : Int) : Op → Prop
  | .removeThread tid' => tid' ≠ tid
  | .blockThread tid' _ => tid' ≠ tid
  | _ => True

instance (s : Scheduler) : DecidablePred (AddsFresh s) := fun op =>
  match op with
  | .addThread tid => inferInstanceAs (Decidable (s.stateOf tid = some .new))
  | .init | .spawn _ _ _ _ | .removeThread _ | .blockThread _ _ | .wakeThread _ | .tick =>
      isTrue trivial

/-- A current thread that is queued is at the head, within its timeslice; whatever is
current or idle has been started and does not sleep. -/
structure Fair (s : Scheduler) : Prop where
  queues : QueuesOk s
  head : ∀ tid ∈ s.runqueue, s.currentThread = some tid → s.runqueue.head? = some tid
  budget : ∀ tid ∈ s.runqueue, s.currentThread = some tid →
    s.remaining tid ≤ s.timeslice tid
  current : ∀ tid, s.currentThread = some tid →
    tid ∉ s.blocked ∧ s.stateOf tid ≠ some .new
  idle : ∀ tid, s.idleThread = some tid →
    tid ∉ s.runqueue ∧ tid ∉ s.blocked ∧ s.stateOf tid ≠ some .new

theorem fair_start : Fair start where
  queues := queuesOk_start
  head := by simp [start, new]
  budget := by simp [start, new]
  current := by simp [start, new]
  idle := by simp [start, new]

/-! ## Timeslices and remaining ticks outside the tick -/

theorem ticks_of_get {s s' : Scheduler} {tid : Int}
    (h : s'.threads.get tid = s.threads.get tid) :
    s'.timeslice tid = s.timeslice tid ∧ s'.remaining tid = s.remaining tid := by
  simp [timeslice, remaining, h]

theorem ticks_of_update {s s' : Scheduler} {tid : Int} {f : Thread → Thread}
    {hf : ∀ thread, (f thread).tid = thread.tid} (h : s'.threads = s.threads.update tid f hf)
    (hts : ∀ thread, (f thread).timeslice = thread.timeslice)
    (hrt : ∀ thread, (f thread).remainingTicks = thread.remainingTicks) (tid' : Int) :
    s'.timeslice tid' = s.timeslice tid' ∧ s'.remaining tid' = s.remaining tid' := by
  simp only [timeslice, remaining, h, ThreadTable.get_update]
  by_cases htid : tid' = tid
  · cases hget : s.threads.get tid <;> simp [htid, hget, hts, hrt]
  · simp [htid]

theorem ticks_step {s : Scheduler} {op : Op} (hop : op ≠ .tick) {tid : Int}
    (htid : tid ∈ s.threads) :
    (s.step op).timeslice tid = s.timeslice tid ∧
      (s.step op).remaining tid = s.remaining tid := by
  cases op with
  | init => exact ticks_of_get (get_init_of_mem htid)
  | spawn pid name timeslice isKernelThread =>
      exact ticks_of_get (get_spawn_of_mem htid pid name timeslice isKernelThread)
  | addThread tid' =>
      by_cases htable : tid' ∈ s.threads
      · rw [step_addThread htable]
        exact ticks_of_update (addThread_spec s htable).1 (fun _ => rfl) (fun _ => rfl) tid
      · rw [step_addThread_of_not_mem htable]
        exact ⟨rfl, rfl⟩
  | removeThread tid' => exact ⟨rfl, rfl⟩
  | blockThread tid' reason =>
      by_cases hmem : tid' ∈ s.runqueue
      · exact ticks_of_update (blockThread_spec hmem reason).1 (fun _ => rfl) (fun _ => rfl) tid
      · rw [step, blockThread_of_not_mem hmem]
        exact ⟨rfl, rfl⟩
  | wakeThread tid' =>
      by_cases hmem : tid' ∈ s.blocked
      · exact ticks_of_update (wakeThread_spec hmem).1 (fun _ => rfl) (fun _ => rfl) tid
      · rw [step, wakeThread_of_not_mem hmem]
        exact ⟨rfl, rfl⟩
  | tick => exact absurd rfl hop

theorem timeslice_step (s : Scheduler) (op : Op) {tid : Int} (htid : tid ∈ s.threads) :
    (s.step op).timeslice tid = s.timeslice tid := by
  by_cases hop : op = .tick
  · subst hop
    cases hcharged : s.charged with
    | none =>
        have hthreads := (tick_of_empty (charged_eq_none.mp hcharged)).2.2.2.2
        simp only [step, timeslice, hthreads]
    | some tid' => exact (ticked hcharged).timeslice tid
  · exact (ticks_step hop htid).1

/-! ## The invariant -/

theorem stateOf_ne_new_step {s : Scheduler} {op : Op} {tid : Int} (htid : tid ∈ s.threads)
    (h : s.stateOf tid ≠ some .new) : (s.step op).stateOf tid ≠ some .new := by
  have hupdate : ∀ {s' : Scheduler} {tid' : Int} {f : Thread → Thread}
      {hf : ∀ thread, (f thread).tid = thread.tid} {state : TaskState},
      s'.threads = s.threads.update tid' f hf → (∀ thread, (f thread).state = state) →
      state ≠ .new → tid' ∈ s.threads → s'.stateOf tid ≠ some .new := by
    intro s' tid' f hf state hthreads hstate hne htid'
    by_cases heq : tid = tid'
    · rw [heq, stateOf_of_update_self hthreads htid' hstate]
      simpa using hne
    · rwa [stateOf_of_update hthreads heq]
  cases op with
  | init => rwa [stateOf, step, get_init_of_mem htid]
  | spawn pid name timeslice isKernelThread => rwa [stateOf, step, get_spawn_of_mem htid]
  | addThread tid' =>
      by_cases htable : tid' ∈ s.threads
      · rw [step_addThread htable]
        exact hupdate (addThread_spec s htable).1 (fun _ => rfl) (by decide) htable
      · rwa [step_addThread_of_not_mem htable]
  | removeThread tid' => exact h
  | blockThread tid' reason =>
      by_cases hmem : tid' ∈ s.runqueue
      · exact hupdate (blockThread_spec hmem reason).1 (fun _ => rfl) (by decide)
          (s.queued_mem hmem)
      · rwa [step, blockThread_of_not_mem hmem]
  | wakeThread tid' =>
      by_cases hmem : tid' ∈ s.blocked
      · exact hupdate (wakeThread_spec hmem).1 (fun _ => rfl) (by decide) (s.blocked_mem hmem)
      · rwa [step, wakeThread_of_not_mem hmem]
  | tick =>
      cases hcharged : s.charged with
      | none =>
          have hthreads := (tick_of_empty (charged_eq_none.mp hcharged)).2.2.2.2
          rwa [step, stateOf, hthreads]
      | some tid' =>
          rcases (ticked hcharged).stateOf tid with hsame | ⟨-, hstate | hstate⟩
          · rwa [step, hsame]
          · simp [step, hstate]
          · simp [step, hstate]

theorem head?_append_of_head? {queue tail : List Int} {tid : Int}
    (h : queue.head? = some tid) : (queue ++ tail).head? = some tid := by
  rw [List.head?_append, h]
  rfl

namespace Fair

variable {s : Scheduler}

theorem addsAwake (h : Fair s) {op : Op} (hop : AddsFresh s op) : AddsAwake s op := by
  cases op with
  | addThread tid =>
      intro hblocked
      have hstate : s.stateOf tid = some .new := hop
      rw [h.queues.sleeping tid hblocked] at hstate
      cases hstate
  | init => trivial
  | spawn pid name timeslice isKernelThread => trivial
  | removeThread tid => trivial
  | blockThread tid reason => trivial
  | wakeThread tid => trivial
  | tick => trivial

theorem charged_eq_head (h : Fair s) : s.charged = s.runqueue.head? := by
  rw [charged_eq]
  split
  · rename_i hqueued
    obtain ⟨tid, hmem, hcurrent⟩ := hqueued
    rw [hcurrent, h.head tid hmem hcurrent]
  · rfl

theorem left_le (h : Fair s) {tid : Int} (hmem : tid ∈ s.runqueue) :
    s.left tid ≤ s.timeslice tid := by
  unfold left
  split
  · rename_i hcurrent
    exact h.budget tid hmem hcurrent
  · exact Int.le_refl _

theorem of_step {op : Op} (h : Fair s) (hop : op ≠ .tick) (hfresh : AddsFresh s op)
    (hcurrent : ∀ tid, (s.step op).currentThread = some tid →
      s.currentThread = some tid ∧ tid ∉ (s.step op).blocked ∧
      (tid ∈ (s.step op).runqueue →
        tid ∈ s.runqueue ∧ (s.step op).runqueue.head? = s.runqueue.head?))
    (hidle : ∀ tid, (s.step op).idleThread = some tid →
      tid ∉ (s.step op).runqueue ∧ tid ∉ (s.step op).blocked ∧
      (s.step op).stateOf tid ≠ some .new) : Fair (s.step op) where
  queues := queuesOk_step s op h.queues (h.addsAwake hfresh)
  head tid hmem htid := by
    obtain ⟨hold, -, hqueue⟩ := hcurrent tid htid
    obtain ⟨hmem', hhead⟩ := hqueue hmem
    rw [hhead]
    exact h.head tid hmem' hold
  budget tid hmem htid := by
    obtain ⟨hold, -, hqueue⟩ := hcurrent tid htid
    have hmem' := (hqueue hmem).1
    obtain ⟨htimeslice, hremaining⟩ := ticks_step hop (s.queued_mem hmem')
    rw [htimeslice, hremaining]
    exact h.budget tid hmem' hold
  current tid htid := by
    obtain ⟨hold, hblocked, -⟩ := hcurrent tid htid
    have htable := s.refs tid (Or.inr (Or.inr (Or.inl hold)))
    exact ⟨hblocked, stateOf_ne_new_step htable (h.current tid hold).2⟩
  idle := hidle

theorem idle_step (h : Fair s) {op : Op} (hidle : (s.step op).idleThread = s.idleThread)
    (hlists : ∀ tid, s.idleThread = some tid →
      tid ∉ (s.step op).runqueue ∧ tid ∉ (s.step op).blocked) :
    ∀ tid, (s.step op).idleThread = some tid →
      tid ∉ (s.step op).runqueue ∧ tid ∉ (s.step op).blocked ∧
      (s.step op).stateOf tid ≠ some .new := by
  intro tid htid
  rw [hidle] at htid
  obtain ⟨hqueue, hblocked⟩ := hlists tid htid
  have htable := s.refs tid (Or.inr (Or.inr (Or.inr htid)))
  exact ⟨hqueue, hblocked, stateOf_ne_new_step htable (h.idle tid htid).2.2⟩

theorem init (h : Fair s) : Fair (s.step .init) := by
  refine h.of_step (by simp) trivial
    (fun tid htid => ⟨htid, (h.current tid htid).1, fun hmem => ⟨hmem, rfl⟩⟩) ?_
  intro tid htid
  obtain rfl : (s.threads.spawn 0 "[idle]".toList 1 true).1 = tid := Option.some.inj htid
  have hfresh := s.threads.spawn_fresh 0 "[idle]".toList 1 true
  refine ⟨fun hmem => hfresh (s.queued_mem hmem), fun hmem => hfresh (s.blocked_mem hmem), ?_⟩
  have hstate : (s.step .init).stateOf (s.threads.spawn 0 "[idle]".toList 1 true).1 =
      some .runnable :=
    stateOf_updateThread_self (s.spawn 0 "[idle]".toList 1 true) _ makeRunnable (fun _ => rfl)
      .runnable (fun _ => rfl) (Dict.mem_set.mpr (Or.inl rfl))
  rw [hstate]
  exact fun hnew => nomatch hnew

theorem spawn (h : Fair s) (pid : Int) (name : Str) (timeslice : Int)
    (isKernelThread : Bool) : Fair (s.step (.spawn pid name timeslice isKernelThread)) :=
  h.of_step (by simp) trivial
    (fun tid htid => ⟨htid, (h.current tid htid).1, fun hmem => ⟨hmem, rfl⟩⟩)
    (h.idle_step rfl fun tid htid => ⟨(h.idle tid htid).1, (h.idle tid htid).2.1⟩)

theorem addThread (h : Fair s) {tid : Int} (hfresh : s.stateOf tid = some .new) :
    Fair (s.step (.addThread tid)) := by
  by_cases htable : tid ∈ s.threads
  · obtain ⟨-, hqueue, hblocked, hcurrent, hidle⟩ := addThread_spec s htable
    rw [← step_addThread htable] at hqueue hblocked hcurrent hidle
    have hnew : tid ∉ s.runqueue := by
      intro hmem
      have hstate := h.queues.queued tid hmem
      simp [hfresh] at hstate
    rw [if_neg hnew] at hqueue
    refine h.of_step (by simp) hfresh (fun tid' htid' => ?_) (h.idle_step hidle ?_)
    · rw [hcurrent] at htid'
      rw [hblocked, hqueue]
      refine ⟨htid', (h.current tid' htid').1, fun hmem => ?_⟩
      have hold : tid' ∈ s.runqueue := by
        refine (List.mem_append.mp hmem).resolve_right fun hin => ?_
        rw [List.mem_singleton.mp hin] at htid'
        exact (h.current tid htid').2 hfresh
      have hhead := h.head tid' hold htid'
      rw [hhead, head?_append_of_head? hhead]
      exact ⟨hold, rfl⟩
    · intro tid' htid'
      obtain ⟨hout, hawake, hstate⟩ := h.idle tid' htid'
      rw [hqueue, hblocked]
      refine ⟨fun hmem => ?_, hawake⟩
      rcases List.mem_append.mp hmem with hold | hin
      · exact hout hold
      · rw [List.mem_singleton.mp hin] at hstate
        exact hstate hfresh
  · rw [step_addThread_of_not_mem htable]
    exact h

theorem removeThread (h : Fair s) (tid : Int) : Fair (s.step (.removeThread tid)) := by
  refine h.of_step (by simp) trivial (fun tid' htid' => ?_) (h.idle_step rfl ?_)
  · refine ⟨htid', (h.current tid' htid').1, fun hmem => ?_⟩
    obtain ⟨hold, hne⟩ := List.mem_filter.mp hmem
    have hhead := h.head tid' hold htid'
    obtain ⟨rest, hrest⟩ := List.head?_eq_some_iff.mp hhead
    refine ⟨hold, ?_⟩
    change (s.runqueue.filter (· ≠ tid)).head? = s.runqueue.head?
    have hne : tid' ≠ tid := by simpa using hne
    simp [hrest, hne]
  · intro tid' htid'
    obtain ⟨hout, hawake, -⟩ := h.idle tid' htid'
    exact ⟨fun hmem => hout (List.mem_of_mem_filter hmem), hawake⟩

theorem blockThread (h : Fair s) (tid : Int) (reason : Str) :
    Fair (s.step (.blockThread tid reason)) := by
  by_cases hin : tid ∈ s.runqueue
  · obtain ⟨-, hqueue, hblocked, hcurrent, hidle⟩ := blockThread_spec hin reason
    refine h.of_step (by simp) trivial (fun tid' htid' => ?_) (h.idle_step hidle ?_)
    · change (s.blockThread tid reason).currentThread = some tid' at htid'
      change s.currentThread = some tid' ∧ tid' ∉ (s.blockThread tid reason).blocked ∧
        (tid' ∈ (s.blockThread tid reason).runqueue → tid' ∈ s.runqueue ∧
          (s.blockThread tid reason).runqueue.head? = s.runqueue.head?)
      rw [hcurrent] at htid'
      split at htid'
      · cases htid'
      · rename_i hother
        have hne : tid' ≠ tid := by
          rintro rfl
          exact hother htid'
        rw [hblocked, hqueue]
        refine ⟨htid', ?_, fun hmem => ?_⟩
        · simp [(h.current tid' htid').1, hne]
        · have hold := List.mem_of_mem_erase hmem
          have hhead := h.head tid' hold htid'
          obtain ⟨rest, hrest⟩ := List.head?_eq_some_iff.mp hhead
          refine ⟨hold, ?_⟩
          rw [hrest, List.erase_cons_tail (by simpa using hne)]
          rfl
    · intro tid' htid'
      obtain ⟨hout, hawake, -⟩ := h.idle tid' htid'
      change tid' ∉ (s.blockThread tid reason).runqueue ∧
        tid' ∉ (s.blockThread tid reason).blocked
      rw [hqueue, hblocked]
      refine ⟨fun hmem => hout (List.mem_of_mem_erase hmem), fun hmem => ?_⟩
      rcases List.mem_append.mp hmem with hold | hnew
      · exact hawake hold
      · exact hout (List.mem_singleton.mp hnew ▸ hin)
  · rw [step, blockThread_of_not_mem hin]
    exact h

theorem wakeThread (h : Fair s) (tid : Int) : Fair (s.step (.wakeThread tid)) := by
  by_cases hin : tid ∈ s.blocked
  · obtain ⟨-, hqueue, hblocked, hcurrent, hidle⟩ := wakeThread_spec hin
    refine h.of_step (by simp) trivial (fun tid' htid' => ?_) (h.idle_step hidle ?_)
    · change (s.wakeThread tid).currentThread = some tid' at htid'
      change s.currentThread = some tid' ∧ tid' ∉ (s.wakeThread tid).blocked ∧
        (tid' ∈ (s.wakeThread tid).runqueue → tid' ∈ s.runqueue ∧
          (s.wakeThread tid).runqueue.head? = s.runqueue.head?)
      rw [hcurrent] at htid'
      have hawake := (h.current tid' htid').1
      rw [hblocked, hqueue]
      refine ⟨htid', fun hmem => hawake (List.mem_of_mem_erase hmem), fun hmem => ?_⟩
      have hold : tid' ∈ s.runqueue := by
        refine (List.mem_append.mp hmem).resolve_right fun hnew => ?_
        rw [List.mem_singleton.mp hnew] at hawake
        exact hawake hin
      have hhead := h.head tid' hold htid'
      rw [hhead, head?_append_of_head? hhead]
      exact ⟨hold, rfl⟩
    · intro tid' htid'
      obtain ⟨hout, hawake, -⟩ := h.idle tid' htid'
      change tid' ∉ (s.wakeThread tid).runqueue ∧ tid' ∉ (s.wakeThread tid).blocked
      rw [hqueue, hblocked]
      refine ⟨fun hmem => ?_, fun hmem => hawake (List.mem_of_mem_erase hmem)⟩
      rcases List.mem_append.mp hmem with hold | hnew
      · exact hout hold
      · exact hawake (List.mem_singleton.mp hnew ▸ hin)
  · rw [step, wakeThread_of_not_mem hin]
    exact h

theorem tick (h : Fair s) : Fair s.tick := by
  have hqueues := h.queues.tick
  cases hcharged : s.charged with
  | none =>
      obtain ⟨hqueue, hblocked, hidle, hcurrent, hthreads⟩ :=
        tick_of_empty (charged_eq_none.mp hcharged)
      have hidle' : ∀ tid, s.idleThread = some tid → tid ∉ s.tick.runqueue ∧
          tid ∉ s.tick.blocked ∧ s.tick.stateOf tid ≠ some .new := by
        intro tid htid
        obtain ⟨-, hawake, hstate⟩ := h.idle tid htid
        rw [hqueue, hblocked, stateOf, hthreads]
        exact ⟨List.not_mem_nil, hawake, hstate⟩
      exact
        { queues := hqueues
          head := fun tid hmem => by simp [hqueue] at hmem
          budget := fun tid hmem => by simp [hqueue] at hmem
          current := fun tid htid => (hidle' tid (hcurrent ▸ htid)).2
          idle := fun tid htid => hidle' tid (hidle ▸ htid) }
  | some tid =>
      have hticked := ticked hcharged
      have hmem := mem_of_charged hcharged
      have hheadOld : s.runqueue.head? = some tid := h.charged_eq_head ▸ hcharged
      -- the current thread after the tick is the head of the queue after it
      have hhead : s.tick.currentThread = s.tick.runqueue.head? := by
        rw [hticked.currentThread, hticked.runqueue]
        split
        · rfl
        · exact hheadOld.symm
      refine
        { queues := hqueues
          head := fun t _ ht => hhead ▸ ht
          budget := fun t _ ht => ?_
          current := fun t ht => ?_
          idle := fun t ht => ?_ }
      · have hcurrent := hticked.currentThread
        rw [hticked.remaining t ht, hticked.timeslice]
        split
        · exact Int.le_refl _
        · rename_i hlong
          rw [ht, if_neg hlong] at hcurrent
          obtain rfl := Option.some.inj hcurrent
          have hleft := h.left_le hmem
          omega
      · rw [hhead] at ht
        have hin : t ∈ s.tick.runqueue := List.mem_of_head? ht
        refine ⟨hqueues.disjoint hin, ?_⟩
        rcases hqueues.queued t hin with hstate | hstate <;> simp [hstate]
      · rw [hticked.idleThread] at ht
        obtain ⟨hout, hawake, -⟩ := h.idle t ht
        have htable := s.refs t (Or.inr (Or.inr (Or.inr ht)))
        rw [hticked.blocked]
        refine ⟨fun hin => ?_, hawake, @stateOf_ne_new_step s .tick t htable (h.idle t ht).2.2⟩
        rw [hticked.runqueue] at hin
        split at hin
        · exact hout (mem_of_mem_rotated hmem hin)
        · exact hout hin

end Fair

theorem fair_step (s : Scheduler) (op : Op) (h : Fair s) (hop : AddsFresh s op) :
    Fair (s.step op) := by
  cases op with
  | init => exact h.init
  | spawn pid name timeslice isKernelThread => exact h.spawn pid name timeslice isKernelThread
  | addThread tid => exact h.addThread hop
  | removeThread tid => exact h.removeThread tid
  | blockThread tid reason => exact h.blockThread tid reason
  | wakeThread tid => exact h.wakeThread tid
  | tick => exact h.tick

/-! ## The measure -/

def ahead (tid : Int) (queue : List Int) : List Int :=
  queue.takeWhile (· ≠ tid)

@[simp] theorem ahead_cons_self (tid : Int) (queue : List Int) :
    ahead tid (tid :: queue) = [] := by
  simp [ahead]

theorem ahead_cons_of_ne {tid first : Int} (h : first ≠ tid) (queue : List Int) :
    ahead tid (first :: queue) = first :: ahead tid queue := by
  simp [ahead, h]

theorem ahead_append {tid : Int} {queue : List Int} (h : tid ∈ queue) (tail : List Int) :
    ahead tid (queue ++ tail) = ahead tid queue := by
  induction queue with
  | nil => cases h
  | cons first queue ih =>
      by_cases hfirst : first = tid
      · simp [hfirst]
      · have hmem := (List.mem_cons.mp h).resolve_left (Ne.symm hfirst)
        rw [List.cons_append, ahead_cons_of_ne hfirst, ahead_cons_of_ne hfirst, ih hmem]

theorem ahead_subset {tid first : Int} {queue : List Int} (h : first ∈ ahead tid queue) :
    first ∈ queue :=
  (List.takeWhile_sublist _).subset h

theorem ahead_sublist {tid : Int} {sub queue : List Int} (hsub : sub.Sublist queue)
    (hnodup : queue.Nodup) (h : tid ∈ sub) : (ahead tid sub).Sublist (ahead tid queue) := by
  induction hsub with
  | slnil => cases h
  | cons first hsub ih =>
      obtain ⟨hfirst, hrest⟩ := List.nodup_cons.mp hnodup
      have hne : first ≠ tid := fun heq => hfirst (heq ▸ hsub.subset h)
      rw [ahead_cons_of_ne hne]
      exact (ih hrest h).cons first
  | cons_cons first hsub ih =>
      by_cases hfirst : first = tid
      · simp [hfirst]
      · rw [ahead_cons_of_ne hfirst, ahead_cons_of_ne hfirst]
        have hmem := (List.mem_cons.mp h).resolve_left (Ne.symm hfirst)
        exact (ih (List.nodup_cons.mp hnodup).2 hmem).cons_cons first

/-- The ticks still due to the threads ahead of `tid`. -/
def due (s : Scheduler) (tid : Int) : Nat :=
  ((ahead tid s.runqueue).map fun first => (max 1 (s.left first)).toNat).sum

theorem due_le_of_sublist {s s' : Scheduler} {tid : Int}
    (hsub : (ahead tid s'.runqueue).Sublist (ahead tid s.runqueue))
    (hleft : ∀ first ∈ s'.runqueue, s'.left first = s.left first) :
    s'.due tid ≤ s.due tid := by
  have hsame : s'.due tid =
      ((ahead tid s'.runqueue).map fun first => (max 1 (s.left first)).toNat).sum := by
    unfold due
    apply congrArg List.sum
    apply List.map_congr_left
    intro first hfirst
    rw [hleft first (ahead_subset hfirst)]
  rw [hsame]
  exact (hsub.map _).sum_le_sum fun _ _ => Nat.zero_le _

theorem left_congr {s s' : Scheduler} {tid : Int}
    (hticks : s'.timeslice tid = s.timeslice tid ∧ s'.remaining tid = s.remaining tid)
    (hcurrent : s'.currentThread = some tid ↔ s.currentThread = some tid) :
    s'.left tid = s.left tid := by
  simp only [left, hticks.1, hticks.2, hcurrent]

theorem due_append {s : Scheduler} {op : Op} (hop : op ≠ .tick) {tid : Int}
    (hmem : tid ∈ s.runqueue) (tail : List Int)
    (hqueue : (s.step op).runqueue = s.runqueue ++ tail)
    (htail : ∀ first ∈ tail, first ∈ s.threads)
    (hcurrent : (s.step op).currentThread = s.currentThread) :
    tid ∈ (s.step op).runqueue ∧ (s.step op).due tid ≤ s.due tid := by
  refine ⟨by rw [hqueue]; exact List.mem_append_left _ hmem, due_le_of_sublist ?_ ?_⟩
  · rw [hqueue, ahead_append hmem]
  · intro first hfirst
    have htable : first ∈ s.threads := by
      rw [hqueue] at hfirst
      exact (List.mem_append.mp hfirst).elim s.queued_mem (htail first)
    exact left_congr (ticks_step hop htable) (by rw [hcurrent])

theorem due_blockThread {s : Scheduler} (hnodup : s.runqueue.Nodup) {tid tid' : Int}
    (hne : tid ≠ tid') (hmem : tid ∈ s.runqueue) (hin : tid' ∈ s.runqueue) (reason : Str) :
    tid ∈ (s.step (.blockThread tid' reason)).runqueue ∧
      (s.step (.blockThread tid' reason)).due tid ≤ s.due tid := by
  obtain ⟨-, hqueue, -, hcurrent, -⟩ := blockThread_spec hin reason
  have hkept : tid ∈ s.runqueue.erase tid' := (List.mem_erase_of_ne hne).mpr hmem
  refine ⟨hqueue ▸ hkept, due_le_of_sublist ?_ ?_⟩
  · rw [step, hqueue]
    exact ahead_sublist List.erase_sublist hnodup hkept
  · intro first hfirst
    rw [step, hqueue] at hfirst
    obtain ⟨hother, hold⟩ := hnodup.mem_erase_iff.mp hfirst
    refine left_congr (ticks_step Op.noConfusion (s.queued_mem hold)) ?_
    rw [step, hcurrent]
    split
    · rename_i hblocked
      simp [hblocked, Ne.symm hother]
    · exact Iff.rfl

theorem due_step {s : Scheduler} (h : Fair s) {op : Op} (hop : op ≠ .tick) {tid : Int}
    (hspare : Spares tid op) (hmem : tid ∈ s.runqueue) :
    tid ∈ (s.step op).runqueue ∧ (s.step op).due tid ≤ s.due tid := by
  have hnodup := (List.nodup_append.mp h.queues.nodup).1
  have happend := due_append hop hmem
  cases op with
  | init => exact happend [] (List.append_nil _).symm (by simp) rfl
  | spawn pid name timeslice isKernelThread =>
      exact happend [] (List.append_nil _).symm (by simp) rfl
  | addThread tid' =>
      by_cases htable : tid' ∈ s.threads
      · obtain ⟨-, hqueue, -, hcurrent, -⟩ := addThread_spec s htable
        rw [← step_addThread htable] at hqueue hcurrent
        split at hqueue
        · exact happend [] (by rw [hqueue, List.append_nil]) (by simp) hcurrent
        · exact happend [tid'] hqueue (by simpa using htable) hcurrent
      · rw [step_addThread_of_not_mem htable]
        exact ⟨hmem, Nat.le_refl _⟩
  | removeThread tid' =>
      have hkept : tid ∈ (s.step (.removeThread tid')).runqueue :=
        List.mem_filter.mpr ⟨hmem, by simpa using Ne.symm hspare⟩
      refine ⟨hkept, due_le_of_sublist (ahead_sublist List.filter_sublist hnodup hkept) ?_⟩
      intro first hfirst
      exact left_congr (ticks_step hop (s.queued_mem (List.mem_of_mem_filter hfirst))) Iff.rfl
  | blockThread tid' reason =>
      by_cases hin : tid' ∈ s.runqueue
      · exact due_blockThread hnodup (Ne.symm hspare) hmem hin reason
      · rw [step, blockThread_of_not_mem hin]
        exact ⟨hmem, Nat.le_refl _⟩
  | wakeThread tid' =>
      by_cases hin : tid' ∈ s.blocked
      · obtain ⟨-, hqueue, -, hcurrent, -⟩ := wakeThread_spec hin
        exact happend [tid'] hqueue (by simpa using s.blocked_mem hin) hcurrent
      · rw [step, wakeThread_of_not_mem hin]
        exact ⟨hmem, Nat.le_refl _⟩
  | tick => exact absurd rfl hop

theorem mem_tick {s : Scheduler} {tid : Int} (hmem : tid ∈ s.runqueue) :
    tid ∈ s.tick.runqueue := by
  cases hcharged : s.charged with
  | none =>
      rw [charged_eq_none.mp hcharged] at hmem
      cases hmem
  | some first =>
      rw [(ticked hcharged).runqueue]
      split
      · have hperm := List.perm_cons_erase (mem_of_charged hcharged)
        exact (List.perm_append_singleton _ _).symm.subset (hperm.subset hmem)
      · exact hmem

theorem due_tick {s : Scheduler} (h : Fair s) {tid : Int} (hmem : tid ∈ s.runqueue)
    (hother : s.charged ≠ some tid) : s.tick.due tid + 1 ≤ s.due tid := by
  have hnodup := (List.nodup_append.mp h.queues.nodup).1
  have hhead := h.charged_eq_head
  obtain ⟨first, rest, hqueue⟩ := List.exists_cons_of_ne_nil (List.ne_nil_of_mem hmem)
  rw [hqueue] at hhead hnodup hmem
  have hcharged : s.charged = some first := hhead
  have hne : first ≠ tid := fun heq => hother (heq ▸ hcharged)
  have hrest : tid ∈ rest := (List.mem_cons.mp hmem).resolve_left (Ne.symm hne)
  have hfresh : first ∉ rest := (List.nodup_cons.mp hnodup).1
  have hticked := ticked hcharged
  have hrun := hticked.runqueue
  have hcur := hticked.currentThread
  rw [hqueue, List.erase_cons_head] at hrun hcur
  -- the threads behind the head are charged full timeslices, before and after
  have hbefore : ∀ b ∈ rest, s.left b = s.timeslice b := by
    intro b hb
    rw [left, if_neg]
    intro hcurrent
    have hb' := h.head b (hqueue ▸ List.mem_cons_of_mem _ hb) hcurrent
    rw [hqueue] at hb'
    exact hfresh (Option.some.inj hb' ▸ hb)
  have hdue : s.due tid = (max 1 (s.left first)).toNat +
      ((ahead tid rest).map fun b => (max 1 (s.timeslice b)).toNat).sum := by
    rw [due, hqueue, ahead_cons_of_ne hne, List.map_cons, List.sum_cons]
    congr 2
    apply List.map_congr_left
    intro b hb
    rw [hbefore b (ahead_subset hb)]
  have hafter : ∀ b ∈ rest, s.tick.left b = s.timeslice b := by
    intro b hb
    unfold left
    split
    · rename_i hcurrent
      rw [hticked.remaining b hcurrent]
      split
      · rfl
      · rename_i hlong
        rw [hcurrent, if_neg hlong] at hcur
        exact (hfresh (Option.some.inj hcur ▸ hb)).elim
    · exact hticked.timeslice b
  have hsum : ((ahead tid rest).map fun b => (max 1 (s.tick.left b)).toNat).sum =
      ((ahead tid rest).map fun b => (max 1 (s.timeslice b)).toNat).sum := by
    apply congrArg List.sum
    apply List.map_congr_left
    intro b hb
    rw [hafter b (ahead_subset hb)]
  by_cases hlast : s.left first ≤ 1
  · rw [if_pos hlast] at hrun
    rw [hdue, due, hrun, ahead_append hrest, hsum]
    omega
  · rw [if_neg hlast] at hrun hcur
    have hleft : s.tick.left first = s.left first - 1 := by
      rw [left, if_pos hcur, hticked.remaining first hcur, if_neg hlast]
    rw [hdue, due, hrun, ahead_cons_of_ne hne, List.map_cons, List.sum_cons, hsum, hleft]
    omega

theorem due_le_quanta {s : Scheduler} (h : Fair s) {tid : Int} {i : Nat}
    (hi : s.runqueue[i]? = some tid) : s.due tid ≤ ((s.runqueue.take i).map s.quantum).sum := by
  have hsub : (ahead tid s.runqueue).Sublist (s.runqueue.take i) := by
    generalize s.runqueue = queue at hi
    induction queue generalizing i with
    | nil => simp at hi
    | cons first queue ih =>
        by_cases hfirst : first = tid
        · simp [hfirst]
        · cases i with
          | zero => exact (hfirst (by simpa using hi)).elim
          | succ i =>
              rw [ahead_cons_of_ne hfirst, List.take_succ_cons]
              exact (ih (by simpa using hi)).cons_cons first
  have hslices : s.due tid ≤ ((ahead tid s.runqueue).map s.quantum).sum := by
    apply List.sum_le_sum
    intro first hfirst
    have hleft := h.left_le (ahead_subset hfirst)
    unfold quantum
    omega
  exact hslices.trans ((hsub.map s.quantum).sum_le_sum fun _ _ => Nat.zero_le _)

/-! ## Runs -/

/-- A tick runs `tid`: it is current when the tick takes one off its ticks. -/
def RunsNow (tid : Int) (s : Scheduler) (op : Op) : Prop :=
  op = .tick ∧ s.charged = some tid

def Sparing (tid : Int) (s : Scheduler) (op : Op) : Prop :=
  AddsFresh s op ∧ Spares tid op

structure Waiting (tid slice : Int) (s : Scheduler) : Prop where
  fair : Fair s
  queued : tid ∈ s.runqueue
  timeslice : s.timeslice tid = slice

theorem waiting_step {tid slice : Int} (s : Scheduler) (op : Op) (h : Waiting tid slice s)
    (hop : Sparing tid s op) : Waiting tid slice (s.step op) where
  fair := fair_step s op h.fair hop.1
  queued := by
    by_cases htick : op = .tick
    · subst htick
      exact mem_tick h.queued
    · exact (due_step h.fair htick hop.2 h.queued).1
  timeslice := (timeslice_step s op (s.queued_mem h.queued)).trans h.timeslice

theorem due_rank {tid slice : Int} (s : Scheduler) (op : Op) (h : Waiting tid slice s)
    (hop : Sparing tid s op) (hrun : ¬ RunsNow tid s op) :
    (s.step op).due tid + (if decide (op = .tick) then 1 else 0) ≤ s.due tid := by
  by_cases htick : op = .tick
  · subst htick
    exact due_tick h.fair h.queued fun hcharged => hrun ⟨rfl, hcharged⟩
  · simpa [htick] using (due_step h.fair htick hop.2 h.queued).2

/-- A thread with two or more ticks is current before or after the tick that runs it. -/
theorem current_of_runsNow {tid : Int} {s : Scheduler} (hslice : 2 ≤ s.timeslice tid)
    (hrun : s.charged = some tid) :
    s.currentThread = some tid ∨ s.tick.currentThread = some tid := by
  by_cases hcurrent : s.currentThread = some tid
  · exact Or.inl hcurrent
  · have hleft : ¬ s.left tid ≤ 1 := by
      rw [left, if_neg hcurrent]
      omega
    exact Or.inr (by rw [(ticked hrun).currentThread, if_neg hleft])

/-- No starvation, in every state reached by adding fresh threads only.  Once a run
that spares a queued thread has as many ticks as the threads ahead get in one round,
and one more, some tick has run the thread, and a thread with two or more ticks has
been current between two calls.  Ticks, blocks and wake-ups never lose or duplicate
a thread. -/
theorem runs_within (setup : List Op) (hsetup : Guarded step AddsFresh start setup) :
    let s := run step start setup
    (∀ (ops : List Op) (tid : Int) (i : Nat), s.runqueue[i]? = some tid →
      Guarded step (Sparing tid) s ops →
      1 + ((s.runqueue.take i).map s.quantum).sum ≤ ops.countP (fun op => op = .tick) →
      Occurs step (RunsNow tid) s ops ∧
      (2 ≤ s.timeslice tid → ∃ pre, pre <+: ops ∧
        (run step s pre).currentThread = some tid)) ∧
    (∀ op, op = .tick ∨ (∃ tid reason, op = .blockThread tid reason) ∨
        (∃ tid, op = .wakeThread tid) →
      ((s.step op).runqueue ++ (s.step op).blocked).Perm (s.runqueue ++ s.blocked) ∧
        ((s.step op).runqueue ++ (s.step op).blocked).Nodup) := by
  intro s
  have hfair : Fair s := run_of_guarded fair_step fair_start hsetup
  refine ⟨fun ops tid i hi hops hticks => ?_, fun op hkind => ?_⟩
  · have hwaiting : Waiting tid (s.timeslice tid) s := ⟨hfair, List.mem_of_getElem? hi, rfl⟩
    have hdue := due_le_quanta hfair hi
    have hcount : s.due tid < ops.countP fun op => decide (op = .tick) := by omega
    have hoccurs : Occurs step (RunsNow tid) s ops :=
      @occurs_of_measure _ _ step _ (Sparing tid) (RunsNow tid) (fun op => decide (op = .tick))
        (fun s => s.due tid) waiting_step due_rank _ _ hwaiting hops hcount
    refine ⟨hoccurs, fun hslice => ?_⟩
    obtain ⟨pre, op, post, hsplit, rfl, hrun⟩ := occurs_iff.mp hoccurs
    have hpre : Waiting tid (s.timeslice tid) (run step s pre) := by
      rw [hsplit, guarded_append] at hops
      exact run_of_guarded waiting_step hwaiting hops.1
    have hslice' : 2 ≤ (run step s pre).timeslice tid := hpre.timeslice ▸ hslice
    rcases current_of_runsNow hslice' hrun with hcurrent | hcurrent
    · exact ⟨pre, ⟨.tick :: post, hsplit.symm⟩, hcurrent⟩
    · refine ⟨pre ++ [.tick], ⟨post, by simp [hsplit]⟩, ?_⟩
      rw [run_append]
      exact hcurrent
  · have hperm : ((s.step op).runqueue ++ (s.step op).blocked).Perm
        (s.runqueue ++ s.blocked) := by
      rcases hkind with rfl | ⟨tid, reason, rfl⟩ | ⟨tid, rfl⟩
      · exact tick_perm s
      · exact blockThread_perm s tid reason
      · exact wakeThread_perm s tid
    exact ⟨hperm, hperm.nodup_iff.mpr hfair.queues.nodup⟩

def twoQueued : List Op :=
  [.spawn 1 "a".toList 1 false, .spawn 1 "b".toList 10 false, .addThread 1, .addThread 2]

/-- A thread with one tick at the head of the queue is run by a tick that also
rotates it away, so that it is current in no state between two calls. -/
theorem head_never_current :
    let s := run step start twoQueued
    Guarded step AddsFresh start twoQueued ∧ s.runqueue[0]? = some 1 ∧
    Guarded step (Sparing 1) s [.tick] ∧
    1 + ((s.runqueue.take 0).map s.quantum).sum ≤ [Op.tick].countP (fun op => op = .tick) ∧
    ∀ pre, pre <+: [Op.tick] → (run step s pre).currentThread ≠ some 1 := by
  intro s
  refine ⟨by decide, by decide, ⟨⟨trivial, trivial⟩, trivial⟩, by decide, fun pre hpre => ?_⟩
  cases pre with
  | nil => decide
  | cons op pre =>
      obtain ⟨rfl, htail⟩ := List.cons_prefix_cons.mp hpre
      rw [List.prefix_nil.mp htail]
      decide

theorem runs_within_twoQueued :
    Guarded step AddsFresh start twoQueued ∧
    Occurs step (RunsNow 2) (run step start twoQueued) [.tick, .tick] := by
  have hsetup : Guarded step AddsFresh start twoQueued := by decide
  exact ⟨hsetup, ((runs_within twoQueued hsetup).1 [.tick, .tick] 2 1 (by decide)
    ⟨⟨trivial, trivial⟩, ⟨trivial, trivial⟩, trivial⟩ (by decide)).1⟩

end ComputeKernel.Sched.Scheduler
