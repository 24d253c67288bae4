import ComputeKernel.Tasks.Thread

/-!
# The round-robin scheduler

Run queue, blocked list and current thread hold tids of one thread table.  A tick
picks a thread if the current one is not queued, charges it, and rotates the
queue when its time is used up.
-/

namespace ComputeKernel.Sched

open Lib Tasks

structure Scheduler where
  threads : ThreadTable
  runqueue : List Int
  currentThread : Option Int
  idleThread : Option Int
  tickCount : Int
  contextSwitches : Int
  blocked : List Int
  refs : ∀ tid, tid ∈ runqueue ∨ tid ∈ blocked ∨ currentThread = some tid ∨
    idleThread = some tid → tid ∈ threads

/-! The assignments the scheduler makes to a thread. -/

def makeRunnable (thread : Thread) : Thread :=
  { thread with state := .runnable }

def sleep (reason : Str) (thread : Thread) : Thread :=
  { thread with state := .sleepInt, waitReason := reason }

def wake (thread : Thread) : Thread :=
  { thread with state := .runnable, waitReason := [] }

def dispatch (thread : Thread) : Thread :=
  { thread with state := .running, remainingTicks := thread.timeslice }

def takeTick (thread : Thread) : Thread :=
  { thread with remainingTicks := thread.remainingTicks - 1 }

def preempt (thread : Thread) : Thread :=
  { thread with state := .runnable, remainingTicks := thread.timeslice }

namespace Scheduler

def new (threads : ThreadTable) : Scheduler where
  threads := threads
  runqueue := []
  currentThread := none
  idleThread := none
  tickCount := 0
  contextSwitches := 0
  blocked := []
  refs := by simp

def timeslice (s : Scheduler) (tid : Int) : Int :=
  ((s.threads.get tid).map Thread.timeslice).getD 0

def remaining (s : Scheduler) (tid : Int) : Int :=
  ((s.threads.get tid).map Thread.remainingTicks).getD 0

def stateOf (s : Scheduler) (tid : Int) : Option TaskState :=
  (s.threads.get tid).map Thread.state

/-! ## Assignments -/

def updateThread (s : Scheduler) (tid : Int) (f : Thread → Thread)
    (hf : ∀ thread, (f thread).tid = thread.tid) : Scheduler :=
  { s with
    threads := s.threads.update tid f hf
    refs := fun tid' h => ThreadTable.mem_update.mpr (s.refs tid' h) }

/-- Rearrange the threads held by the two lists, possibly dropping some. -/
def setQueues (s : Scheduler) (runqueue blocked : List Int)
    (h : ∀ tid, tid ∈ runqueue ∨ tid ∈ blocked → tid ∈ s.runqueue ∨ tid ∈ s.blocked) :
    Scheduler :=
  { s with
    runqueue := runqueue
    blocked := blocked
    refs := fun tid htid => by
      rcases htid with hqueue | hblocked | hheld
      · exact s.refs tid ((h tid (Or.inl hqueue)).imp_right Or.inl)
      · exact s.refs tid ((h tid (Or.inr hblocked)).imp_right Or.inl)
      · exact s.refs tid (Or.inr (Or.inr hheld)) }

def setCurrent (s : Scheduler) (current : Option Int)
    (h : ∀ tid, current = some tid → tid ∈ s.threads) : Scheduler :=
  { s with
    currentThread := current
    refs := fun tid htid => by
      rcases htid with hqueue | hblocked | hcurrent | hidle
      · exact s.refs tid (Or.inl hqueue)
      · exact s.refs tid (Or.inr (Or.inl hblocked))
      · exact h tid hcurrent
      · exact s.refs tid (Or.inr (Or.inr (Or.inr hidle))) }

theorem queued_mem (s : Scheduler) {tid : Int} (h : tid ∈ s.runqueue) : tid ∈ s.threads :=
  s.refs tid (Or.inl h)

theorem blocked_mem (s : Scheduler) {tid : Int} (h : tid ∈ s.blocked) : tid ∈ s.threads :=
  s.refs tid (Or.inr (Or.inl h))

/-! ## Operations -/

def spawn (s : Scheduler) (pid : Int) (name : Str) (timeslice : Int)
    (isKernelThread : Bool) : Scheduler :=
  { s with
    threads := (s.threads.spawn pid name timeslice isKernelThread).2
    refs := fun tid h => Dict.mem_set.mpr (Or.inr (s.refs tid h)) }

def init (s : Scheduler) : Scheduler :=
  let idle := (s.threads.spawn 0 "[idle]".toList 1 true).1
  let spawned := (s.spawn 0 "[idle]".toList 1 true).updateThread idle makeRunnable
    fun _ => rfl
  { spawned with
    idleThread := some idle
    refs := fun tid h => by
      rcases h with hqueue | hblocked | hcurrent | hidle
      · exact spawned.refs tid (Or.inl hqueue)
      · exact spawned.refs tid (Or.inr (Or.inl hblocked))
      · exact spawned.refs tid (Or.inr (Or.inr (Or.inl hcurrent)))
      · cases hidle
        exact Dict.mem_modify.mpr (Dict.mem_set.mpr (Or.inl rfl)) }

def enqueue (s : Scheduler) (tid : Int) (h : tid ∈ s.threads) : Scheduler :=
  { s with
    runqueue := s.runqueue ++ [tid]
    refs := fun tid' htid' => by
      rcases htid' with hqueue | hrest
      · rcases List.mem_append.mp hqueue with hold | hnew
        · exact s.refs tid' (Or.inl hold)
        · exact List.mem_singleton.mp hnew ▸ h
      · exact s.refs tid' (Or.inr hrest) }

def addThread (s : Scheduler) (tid : Int) (h : tid ∈ s.threads) : Scheduler :=
  let s' := s.updateThread tid makeRunnable fun _ => rfl
  if tid ∈ s'.runqueue then s' else s'.enqueue tid (Dict.mem_modify.mpr h)

def removeThread (s : Scheduler) (tid : Int) : Scheduler :=
  s.setQueues (s.runqueue.filter (· ≠ tid)) s.blocked fun _ h =>
    h.imp_left List.mem_of_mem_filter

def suspend (s : Scheduler) (tid : Int) (reason : Str) (h : tid ∈ s.runqueue) : Scheduler :=
  (s.updateThread tid (sleep reason) fun _ => rfl).setQueues (s.runqueue.erase tid)
    (s.blocked ++ [tid]) fun tid' htid' => by
      rcases htid' with hqueue | hblocked
      · exact Or.inl (List.mem_of_mem_erase hqueue)
      · rcases List.mem_append.mp hblocked with hold | hnew
        · exact Or.inr hold
        · exact Or.inl (List.mem_singleton.mp hnew ▸ h)

def yieldCurrent (s : Scheduler) (tid : Int) : Scheduler :=
  if s.currentThread = some tid then s.setCurrent none (by simp) else s

def blockThread (s : Scheduler) (tid : Int) (reason : Str) : Scheduler :=
  if h : tid ∈ s.runqueue then (s.suspend tid reason h).yieldCurrent tid else s

def wakeThread (s : Scheduler) (tid : Int) : Scheduler :=
  if h : tid ∈ s.blocked then
    (s.updateThread tid wake fun _ => rfl).setQueues (s.runqueue ++ [tid])
      (s.blocked.erase tid) fun tid' htid' => by
        rcases htid' with hqueue | hblocked
        · rcases List.mem_append.mp hqueue with hold | hnew
          · exact Or.inl hold
          · exact Or.inr (List.mem_singleton.mp hnew ▸ h)
        · exact Or.inr (List.mem_of_mem_erase hblocked)
  else s

def CurrentQueued (s : Scheduler) : Prop :=
  ∃ tid ∈ s.runqueue, s.currentThread = some tid

instance (s : Scheduler) : Decidable s.CurrentQueued :=
  inferInstanceAs (Decidable (∃ tid ∈ s.runqueue, s.currentThread = some tid))

def switchTo (s : Scheduler) (tid : Int) (h : tid ∈ s.threads) : Scheduler :=
  (s.setCurrent (some tid) fun _ hcurrent => Option.some.inj hcurrent ▸ h).updateThread tid
    dispatch fun _ => rfl

def pick (s : Scheduler) : Scheduler :=
  if h : s.runqueue = [] then s
  else if s.CurrentQueued then s
  else s.switchTo (s.runqueue.head h) (s.queued_mem (List.head_mem h))

def charge (s : Scheduler) : Scheduler :=
  match s.currentThread with
  | none => s
  | some tid => s.updateThread tid takeTick fun _ => rfl

theorem mem_of_mem_rotated {queue : List Int} {tid t : Int} (h : tid ∈ queue)
    (ht : t ∈ queue.erase tid ++ [tid]) : t ∈ queue := by
  rcases List.mem_append.mp ht with hold | hnew
  · exact List.mem_of_mem_erase hold
  · exact List.mem_singleton.mp hnew ▸ h

def rotate (s : Scheduler) (tid : Int) : Scheduler :=
  let s' := s.updateThread tid preempt fun _ => rfl
  if h : tid ∈ s'.runqueue then
    s'.setQueues (s'.runqueue.erase tid ++ [tid]) s'.blocked fun _ hheld =>
      hheld.imp_left (mem_of_mem_rotated h)
  else s'

def switchToFirst (s : Scheduler) : Scheduler :=
  if h : s.runqueue = [] then
    s.setCurrent s.idleThread fun tid hidle => s.refs tid (Or.inr (Or.inr (Or.inr hidle)))
  else
    { s.switchTo (s.runqueue.head h) (s.queued_mem (List.head_mem h)) with
      contextSwitches := s.contextSwitches + 1 }

def expire (s : Scheduler) : Scheduler :=
  match s.currentThread with
  | none => s
  | some old => if s.remaining old ≤ 0 then (s.rotate old).switchToFirst else s

/-- One timer tick; the thread it returns is the current one afterwards. -/
def tick (s : Scheduler) : Scheduler :=
  let s := { s with tickCount := s.tickCount + 1 }
  if s.runqueue = [] then
    s.setCurrent s.idleThread fun tid hidle => s.refs tid (Or.inr (Or.inr (Or.inr hidle)))
  else s.pick.charge.expire

/-- The thread whose remaining ticks the next tick takes one off. -/
def charged (s : Scheduler) : Option Int :=
  if s.runqueue = [] then none else s.pick.currentThread

/-- The ticks a thread has left when it is charged next. -/
def left (s : Scheduler) (tid : Int) : Int :=
  if s.currentThread = some tid then s.remaining tid else s.timeslice tid

def tickN (s : Scheduler) : Nat → Scheduler
  | 0 => s
  | n + 1 => s.tick.tickN n

def charges (s : Scheduler) : Nat → List (Option Int)
  | 0 => []
  | n + 1 => s.charged :: s.tick.charges n

/-! ## Fields after an assignment -/

section Fields

variable (s : Scheduler) (tid tid' : Int) (f : Thread → Thread)
  (hf : ∀ thread, (f thread).tid = thread.tid)

theorem get_updateThread :
    (s.updateThread tid f hf).threads.get tid' =
      if tid' = tid then (s.threads.get tid).map f else s.threads.get tid' :=
  ThreadTable.get_update s.threads tid tid' f hf

theorem timeslice_updateThread (hts : ∀ thread, (f thread).timeslice = thread.timeslice) :
    (s.updateThread tid f hf).timeslice tid' = s.timeslice tid' := by
  unfold timeslice
  rw [get_updateThread]
  by_cases h : tid' = tid
  · cases hget : s.threads.get tid <;> simp [h, hget, hts]
  · simp [h]

theorem remaining_updateThread_self (g : Int → Int → Int)
    (hg : ∀ thread, (f thread).remainingTicks = g thread.timeslice thread.remainingTicks)
    (h : tid ∈ s.threads) :
    (s.updateThread tid f hf).remaining tid = g (s.timeslice tid) (s.remaining tid) := by
  obtain ⟨thread, hget⟩ := ThreadTable.mem_iff.mp h
  simp [remaining, timeslice, get_updateThread, hget, hg]

theorem stateOf_updateThread_of_ne (h : tid' ≠ tid) :
    (s.updateThread tid f hf).stateOf tid' = s.stateOf tid' := by
  simp [stateOf, get_updateThread, h]

theorem stateOf_updateThread_self (state : TaskState)
    (hstate : ∀ thread, (f thread).state = state) (h : tid ∈ s.threads) :
    (s.updateThread tid f hf).stateOf tid = some state := by
  obtain ⟨thread, hget⟩ := ThreadTable.mem_iff.mp h
  simp [stateOf, get_updateThread, hget, hstate]

theorem stateOf_updateThread_cases (state : TaskState)
    (hstate : ∀ thread, (f thread).state = state) (h : tid ∈ s.threads) :
    (s.updateThread tid f hf).stateOf tid' = s.stateOf tid' ∨
      (tid' = tid ∧ (s.updateThread tid f hf).stateOf tid' = some state) := by
  by_cases htid : tid' = tid
  · subst htid
    exact Or.inr ⟨rfl, stateOf_updateThread_self s tid' f hf state hstate h⟩
  · exact Or.inl (stateOf_updateThread_of_ne s tid tid' f hf htid)

theorem stateOf_updateThread (hstate : ∀ thread, (f thread).state = thread.state) :
    (s.updateThread tid f hf).stateOf tid' = s.stateOf tid' := by
  unfold stateOf
  rw [get_updateThread]
  by_cases h : tid' = tid
  · cases hget : s.threads.get tid <;> simp [h, hget, hstate]
  · simp [h]

end Fields

end Scheduler

end ComputeKernel.Sched
