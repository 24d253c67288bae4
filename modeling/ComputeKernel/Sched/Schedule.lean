import ComputeKernel.Lib.RoundRobin
import ComputeKernel.Sched.Tick

/-!
# The scheduler follows the round-robin rota

Ticks refine the rota of the library: its queue is the run queue, its quantum
is the timeslice, at least one, and its turns are the context switches.
-/

namespace ComputeKernel.Sched.Scheduler

open Lib Lib.RoundRobin

def quantum (s : Scheduler) (tid : Int) : Nat :=
  (max 1 (s.timeslice tid)).toNat

theorem quantum_pos (s : Scheduler) (tid : Int) : 0 < s.quantum tid := by
  unfold quantum
  omega

/-- The state `s` of the scheduler stands where `rota` stands; `start` context
switches happened before. -/
structure Follows (quantum : Int → Nat) (start : Int) (s : Scheduler) (rota : Rota Int) :
    Prop where
  nonempty : rota.queue ≠ []
  queue : s.runqueue = rota.queue
  slice : ∀ tid, s.quantum tid = quantum tid
  charged : s.charged = rota.queue.head?
  left : ∀ tid, rota.queue.head? = some tid → (max 1 (s.left tid)).toNat = rota.left
  turns : s.contextSwitches = start + rota.turns

theorem charged_of_current {s : Scheduler} {tid : Int} (hcurrent : s.currentThread = some tid)
    (hmem : tid ∈ s.runqueue) : s.charged = some tid := by
  rw [charged_eq, if_pos ⟨tid, hmem, hcurrent⟩, hcurrent]

theorem Follows.tick {quantum : Int → Nat} {start : Int} {s : Scheduler} {rota : Rota Int}
    (h : Follows quantum start s rota) : Follows quantum start s.tick (serve quantum rota) := by
  rcases rota with ⟨queue, left, turns⟩
  obtain ⟨first, rest, rfl⟩ := List.exists_cons_of_ne_nil h.nonempty
  have hqueue : s.runqueue = first :: rest := h.queue
  have hticked := ticked h.charged
  have hleft : (max 1 (s.left first)).toNat = left := h.left first rfl
  have hturns : s.contextSwitches = start + turns := h.turns
  have hslice : ∀ tid, s.tick.quantum tid = quantum tid := fun tid => by
    rw [← h.slice tid, Scheduler.quantum, Scheduler.quantum, hticked.timeslice]
  have hrun := hticked.runqueue
  have hcur := hticked.currentThread
  have hswitch := hticked.contextSwitches
  have hrem := hticked.remaining
  rw [hqueue, List.erase_cons_head] at hrun hcur
  by_cases hlast : s.left first ≤ 1
  · -- the quantum ends: the queue is rotated and its new head starts afresh
    have hleft' : left ≤ 1 := by omega
    simp only [hlast, if_true] at hrun hcur hswitch hrem
    obtain ⟨second, others, hsecond⟩ : ∃ second others, rest ++ [first] = second :: others :=
      List.exists_cons_of_ne_nil (by simp)
    have hcurrent : s.tick.currentThread = some second := by
      rw [hcur, hsecond, List.head?_cons]
    have hmem : second ∈ s.tick.runqueue := by
      rw [hrun, hsecond]
      exact List.mem_cons_self
    simp only [serve, hleft', if_true, fresh]
    exact
      { nonempty := by simp
        queue := hrun
        slice := hslice
        charged := by rw [charged_of_current hcurrent hmem, hsecond, List.head?_cons]
        left := fun tid htid => by
          rw [hsecond, List.head?_cons] at htid
          obtain rfl := Option.some.inj htid
          rw [Scheduler.left, if_pos hcurrent, hrem second hcurrent, hsecond, headQuantum,
            ← h.slice second, Scheduler.quantum]
        turns := by
          rw [hswitch, hturns]
          push_cast
          omega }
  · have hleft' : ¬ left ≤ 1 := by omega
    simp only [hlast, if_false] at hrun hcur hswitch hrem
    have hmem : first ∈ s.tick.runqueue := by
      rw [hrun]
      exact List.mem_cons_self
    simp only [serve, hleft', if_false]
    exact
      { nonempty := by simp
        queue := hrun
        slice := hslice
        charged := charged_of_current hcur hmem
        left := fun tid htid => by
          obtain rfl := Option.some.inj htid
          rw [Scheduler.left, if_pos hcur, hrem first hcur]
          change (max 1 (s.left first - 1)).toNat = left - 1
          omega
        turns := by rw [hswitch, hturns] }

theorem Follows.tickN {quantum : Int → Nat} {start : Int} {s : Scheduler} {rota : Rota Int}
    (h : Follows quantum start s rota) (n : Nat) :
    Follows quantum start (s.tickN n) ((serve quantum)^[n] rota) := by
  induction n generalizing s rota with
  | zero => exact h
  | succ n ih => exact ih h.tick

theorem getElem?_charges (s : Scheduler) {n k : Nat} (hk : k < n) :
    (s.charges n)[k]? = some (s.tickN k).charged := by
  induction n generalizing s k with
  | zero => exact absurd hk (Nat.not_lt_zero k)
  | succ n ih =>
      cases k with
      | zero => rfl
      | succ k => exact ih s.tick (Nat.lt_of_succ_lt_succ hk)

def AtQuantumStart (s : Scheduler) : Prop :=
  (∀ tid ∈ s.runqueue, s.currentThread ≠ some tid) ∨
    ∃ tid, s.runqueue.head? = some tid ∧ s.currentThread = some tid ∧
      s.remaining tid = max 1 (s.timeslice tid)

theorem follows_fresh {s : Scheduler} (hne : s.runqueue ≠ []) (hstart : s.AtQuantumStart) :
    Follows s.quantum s.contextSwitches s (fresh s.quantum s.runqueue 0) := by
  obtain ⟨first, rest, hqueue⟩ := List.exists_cons_of_ne_nil hne
  have hhead : s.runqueue.head? = some first := by rw [hqueue, List.head?_cons]
  have hcharged : s.charged = some first := by
    rw [charged_eq]
    split
    · rename_i hqueued
      obtain ⟨tid, hmem, hcurrent⟩ := hqueued
      rcases hstart with hnone | ⟨tid', hfirst, hcurrent', -⟩
      · exact absurd hcurrent (hnone tid hmem)
      · rw [hcurrent', ← hfirst, hhead]
    · exact hhead
  refine
    { nonempty := hne
      queue := rfl
      slice := fun _ => rfl
      charged := hcharged.trans hhead.symm
      left := fun tid htid => ?_
      turns := by simp [fresh] }
  obtain rfl : first = tid := Option.some.inj (hhead.symm.trans htid)
  have hquantum : (max 1 (s.left first)).toNat = s.quantum first := by
    rcases hstart with hnone | ⟨tid', hfirst, hcurrent, hremaining⟩
    · have hother := hnone first (hqueue ▸ List.mem_cons_self)
      rw [left, if_neg hother, quantum]
    · obtain rfl : first = tid' := Option.some.inj (hhead.symm.trans hfirst)
      rw [left, if_pos hcurrent, hremaining, quantum]
      omega
  simp only [fresh, hqueue, headQuantum, hquantum]

/-- During `tickN`, the thread charged by the `k`-th tick is the `k`-th element of
the endless repetition of the round, and a full round restores the queue with one
context switch for each queued thread. -/
theorem tickN_schedule (s : Scheduler) (hne : s.runqueue ≠ []) (hstart : s.AtQuantumStart) :
    (∀ n k, k < n → (s.charges n)[k]? =
      some ((round s.quantum s.runqueue)[k % (round s.quantum s.runqueue).length]?)) ∧
    (s.tickN (s.runqueue.map s.quantum).sum).runqueue = s.runqueue ∧
    (s.tickN (s.runqueue.map s.quantum).sum).contextSwitches =
      s.contextSwitches + s.runqueue.length := by
  have hfollows := follows_fresh hne hstart
  refine ⟨fun n k hk => ?_, ?_⟩
  · rw [getElem?_charges s hk, (hfollows.tickN k).charged]
    exact congrArg some (head_iterate s.quantum_pos s.runqueue 0 hne k)
  · have hround := iterate_round s.quantum_pos s.runqueue 0
    have hend := hfollows.tickN (s.runqueue.map s.quantum).sum
    rw [← round_length, hround] at hend
    rw [← round_length]
    exact ⟨hend.queue, by rw [hend.turns]; simp [fresh]⟩

def pair : Scheduler :=
  let spawned := ((new Tasks.ThreadTable.init).spawn 1 "a".toList 2 false).spawn
    1 "b".toList 0 false
  (spawned.addThread 1 (by decide)).addThread 2 (by decide)

theorem tickN_schedule_pair :
    pair.runqueue = [1, 2] ∧ pair.AtQuantumStart ∧
    (pair.charges 6)[4]? = some (some 1) ∧
    (pair.charges 6)[4]? =
      some ((round pair.quantum pair.runqueue)[4 % (round pair.quantum pair.runqueue).length]?) := by
  have hstart : pair.AtQuantumStart := Or.inl (by decide)
  exact ⟨by decide, hstart, by decide,
    (tickN_schedule pair (by decide) hstart).1 6 4 (by decide)⟩

end ComputeKernel.Sched.Scheduler
