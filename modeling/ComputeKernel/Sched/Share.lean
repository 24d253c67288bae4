import ComputeKernel.Lib.Precedence
import ComputeKernel.Sched.Fairness
import Mathlib.Algebra.Order.Group.Abs
import Mathlib.Algebra.Order.Group.Int

/-!
# Processor shares

Two threads that stay in the run queue are charged in proportion to their timeslices.  How far
one is ahead of the other is a number that the order of the queue and the ticks used up so far
determine, so it never exceeds what is due in one round.
-/

namespace ComputeKernel.Sched.Scheduler

open Lib Lib.Run Tasks

def used (s : Scheduler) (tid : Int) : Int :=
  s.quantum tid - max 1 (s.left tid)

def served (tid : Int) (s : Scheduler) (ops : List Op) : Nat :=
  count step (fun s op => op = .tick ∧ s.charged = some tid) s ops

open Classical in
/-- How far one thread is ahead of another, each tick weighted by the other's quantum. -/
noncomputable def lead (s : Scheduler) (a b : Int) : Int :=
  if Precedes s.runqueue a b then s.quantum b * s.used a
  else s.quantum b * s.quantum a - s.quantum a * s.used b

theorem quantum_eq (s : Scheduler) (tid : Int) :
    (s.quantum tid : Int) = max 1 (s.timeslice tid) := by
  unfold quantum
  omega

/-! ## Used ticks -/

theorem used_of_not_current {s : Scheduler} {tid : Int} (h : s.currentThread ≠ some tid) :
    s.used tid = 0 := by
  rw [used, quantum_eq, left, if_neg h]
  omega

namespace Fair

variable {s : Scheduler} {first : Int} {rest : List Int}

theorem used_behind (h : Fair s) (hqueue : s.runqueue = first :: rest) {tid : Int}
    (hmem : tid ∈ rest) : s.used tid = 0 := by
  apply used_of_not_current
  intro hcurrent
  have hnodup := (List.nodup_append.mp h.queues.nodup).1
  rw [hqueue] at hnodup
  have hhead := h.head tid (hqueue ▸ List.mem_cons_of_mem _ hmem) hcurrent
  rw [hqueue] at hhead
  exact (List.nodup_cons.mp hnodup).1 (Option.some.inj hhead ▸ hmem)

theorem used_bounds (h : Fair s) {tid : Int} (hmem : tid ∈ s.runqueue) :
    0 ≤ s.used tid ∧ s.used tid < s.quantum tid := by
  have hleft := h.left_le hmem
  rw [used, quantum_eq]
  omega

/-- The charged thread uses up one more tick, or, with its last one, moves to the back while
another starts. -/
theorem used_tick (h : Fair s) (hqueue : s.runqueue = first :: rest) :
    (s.tick.runqueue = first :: rest ∧ s.tick.used first = s.used first + 1) ∨
      (s.tick.runqueue = rest ++ [first] ∧ s.used first + 1 = s.quantum first ∧
        ∀ tid ∈ s.runqueue, s.tick.used tid = 0) := by
  have hcharged : s.charged = some first := by
    rw [h.charged_eq_head, hqueue, List.head?_cons]
  have hticked := ticked hcharged
  have hrun := hticked.runqueue
  have hcur := hticked.currentThread
  rw [hqueue, List.erase_cons_head] at hrun hcur
  by_cases hlast : s.left first ≤ 1
  · rw [if_pos hlast] at hrun hcur
    refine Or.inr ⟨hrun, ?_, fun tid hmem => ?_⟩
    · rw [used]
      omega
    · by_cases hcurrent : s.tick.currentThread = some tid
      · rw [used, quantum_eq, left, if_pos hcurrent, hticked.remaining tid hcurrent, if_pos hlast,
          hticked.timeslice]
        omega
      · exact used_of_not_current hcurrent
  · rw [if_neg hlast] at hrun hcur
    refine Or.inl ⟨hrun, ?_⟩
    rw [used, used, quantum_eq, quantum_eq, hticked.timeslice, left, if_pos hcur,
      hticked.remaining first hcur, if_neg hlast]
    omega

end Fair

/-! ## The lead -/

theorem lead_of_precedes {s : Scheduler} {a b : Int} (h : Precedes s.runqueue a b) :
    s.lead a b = s.quantum b * s.used a :=
  if_pos h

theorem lead_of_follows {s : Scheduler} {a b : Int} (h : Precedes s.runqueue b a)
    (hnodup : s.runqueue.Nodup) :
    s.lead a b = s.quantum b * s.quantum a - s.quantum a * s.used b :=
  if_neg (h.asymm hnodup)

/-- Both threads are queued, in a state that adding fresh threads only leads to. -/
structure Sharing (a b : Int) (qa qb : Nat) (s : Scheduler) : Prop where
  fair : Fair s
  first : a ∈ s.runqueue
  second : b ∈ s.runqueue
  quantumFirst : s.quantum a = qa
  quantumSecond : s.quantum b = qb

def SparingBoth (a b : Int) (s : Scheduler) (op : Op) : Prop :=
  AddsFresh s op ∧ Spares a op ∧ Spares b op

instance (a b : Int) (s : Scheduler) : DecidablePred (SparingBoth a b s) := fun op =>
  match op with
  | .addThread tid => inferInstanceAs (Decidable (s.stateOf tid = some .new ∧ True ∧ True))
  | .removeThread tid => inferInstanceAs (Decidable (True ∧ tid ≠ a ∧ tid ≠ b))
  | .blockThread tid _ => inferInstanceAs (Decidable (True ∧ tid ≠ a ∧ tid ≠ b))
  | .init | .spawn _ _ _ _ | .wakeThread _ | .tick => isTrue ⟨trivial, trivial, trivial⟩

namespace Sharing

variable {s : Scheduler} {a b : Int} {qa qb : Nat}

theorem nodup (h : Sharing a b qa qb s) : s.runqueue.Nodup :=
  (List.nodup_append.mp h.fair.queues.nodup).1

theorem step {op : Op} (h : Sharing a b qa qb s) (hop : SparingBoth a b s op) :
    Sharing a b qa qb (s.step op) := by
  have ha := waiting_step s op ⟨h.fair, h.first, rfl⟩ ⟨hop.1, hop.2.1⟩
  have hb := waiting_step s op ⟨h.fair, h.second, rfl⟩ ⟨hop.1, hop.2.2⟩
  refine ⟨ha.fair, ha.queued, hb.queued, ?_, ?_⟩
  · rw [← h.quantumFirst, quantum, quantum, ha.timeslice]
  · rw [← h.quantumSecond, quantum, quantum, hb.timeslice]

theorem lead_bounds (h : Sharing a b qa qb s) :
    0 ≤ s.lead a b ∧ s.lead a b ≤ qb * qa := by
  have hqa := h.quantumFirst
  have hqb := h.quantumSecond
  obtain ⟨hlow, hhigh⟩ := h.fair.used_bounds h.first
  obtain ⟨hlow', hhigh'⟩ := h.fair.used_bounds h.second
  unfold lead
  rw [hqa, hqb] at *
  split
  · exact ⟨Int.mul_nonneg (by omega) hlow, Int.mul_le_mul_of_nonneg_left (by omega) (by omega)⟩
  · have hpos : 0 ≤ (qa : Int) * s.used b := Int.mul_nonneg (by omega) hlow'
    have hle : (qa : Int) * s.used b ≤ qa * qb :=
      Int.mul_le_mul_of_nonneg_left (by omega) (by omega)
    rw [Int.mul_comm qa qb] at hle
    omega

theorem lead_eq_of_order {op : Op} (h : Sharing a b qa qb s) (hop : SparingBoth a b s op)
    (htick : op ≠ .tick) (hne : a ≠ b)
    (horder : Precedes (s.step op).runqueue a b ↔ Precedes s.runqueue a b)
    (hcurrent : ∀ tid, tid = a ∨ tid = b →
      ((s.step op).currentThread = some tid ↔ s.currentThread = some tid)) :
    (s.step op).lead a b = s.lead a b := by
  have hnext := h.step hop
  have hused : ∀ tid, tid = a ∨ tid = b → tid ∈ s.runqueue →
      (s.step op).used tid = s.used tid := by
    intro tid htid hmem
    have hticks := ticks_step htick (s.queued_mem hmem)
    rw [used, used, quantum_eq, quantum_eq, hticks.1, left_congr hticks (hcurrent tid htid)]
  by_cases hab : Precedes s.runqueue a b
  · rw [lead_of_precedes hab, lead_of_precedes (horder.mpr hab), hused a (Or.inl rfl) h.first,
      hnext.quantumSecond, h.quantumSecond]
  · have hba := (precedes_or_precedes h.first h.second hne).resolve_left hab
    have hba' := (precedes_or_precedes hnext.first hnext.second hne).resolve_left
      fun hab' => hab (horder.mp hab')
    rw [lead_of_follows hba h.nodup, lead_of_follows hba' hnext.nodup,
      hused b (Or.inr rfl) h.second, hnext.quantumFirst, hnext.quantumSecond, h.quantumFirst,
      h.quantumSecond]

theorem lead_append {op : Op} (h : Sharing a b qa qb s) (hop : SparingBoth a b s op)
    (htick : op ≠ .tick) (hne : a ≠ b) (tail : List Int)
    (hqueue : (s.step op).runqueue = s.runqueue ++ tail)
    (hcurrent : (s.step op).currentThread = s.currentThread) :
    (s.step op).lead a b = s.lead a b := by
  have hnodup := (h.step hop).nodup
  rw [hqueue] at hnodup
  apply h.lead_eq_of_order hop htick hne
  · rw [hqueue]
    exact precedes_append_iff hnodup h.first h.second hne
  · intro tid _
    rw [hcurrent]

theorem lead_drop {op : Op} (h : Sharing a b qa qb s) (hop : SparingBoth a b s op)
    (htick : op ≠ .tick) (hne : a ≠ b) (hsub : (s.step op).runqueue.Sublist s.runqueue)
    (hcurrent : ∀ tid, tid = a ∨ tid = b →
      ((s.step op).currentThread = some tid ↔ s.currentThread = some tid)) :
    (s.step op).lead a b = s.lead a b := by
  have hnext := h.step hop
  apply h.lead_eq_of_order hop htick hne _ hcurrent
  exact precedes_sublist_iff hsub h.nodup hnext.first hnext.second hne

theorem lead_step {op : Op} (h : Sharing a b qa qb s) (hop : SparingBoth a b s op)
    (htick : op ≠ .tick) (hne : a ≠ b) : (s.step op).lead a b = s.lead a b := by
  have happend := h.lead_append hop htick hne
  cases op with
  | init => exact happend [] (List.append_nil _).symm rfl
  | spawn pid name timeslice isKernelThread => exact happend [] (List.append_nil _).symm rfl
  | addThread tid =>
      by_cases htable : tid ∈ s.threads
      · obtain ⟨-, hqueue, -, hcurrent, -⟩ := addThread_spec s htable
        rw [← step_addThread htable] at hqueue hcurrent
        split at hqueue
        · exact happend [] (by rw [hqueue, List.append_nil]) hcurrent
        · exact happend [tid] hqueue hcurrent
      · rw [step_addThread_of_not_mem htable]
  | removeThread tid => exact h.lead_drop hop htick hne List.filter_sublist fun _ _ => Iff.rfl
  | blockThread tid reason =>
      by_cases hin : tid ∈ s.runqueue
      · obtain ⟨-, hqueue, -, hcurrent, -⟩ := blockThread_spec hin reason
        apply h.lead_drop hop htick hne
        · rw [Scheduler.step, hqueue]
          exact List.erase_sublist
        · intro other hother
          rw [Scheduler.step, hcurrent]
          split
          · rename_i hblocked
            have hdiffers : tid ≠ other := by
              rcases hother with rfl | rfl
              · exact hop.2.1
              · exact hop.2.2
            simp [hblocked, hdiffers]
          · exact Iff.rfl
      · rw [Scheduler.step, blockThread_of_not_mem hin]
  | wakeThread tid =>
      by_cases hin : tid ∈ s.blocked
      · obtain ⟨-, hqueue, -, hcurrent, -⟩ := wakeThread_spec hin
        exact happend [tid] hqueue hcurrent
      · rw [Scheduler.step, wakeThread_of_not_mem hin]
  | tick => exact absurd rfl htick

section Tick

variable {first : Int} {rest : List Int} (h : Sharing a b qa qb s)
  (hqueue : s.runqueue = first :: rest)

include h hqueue

omit hqueue in
theorem tick : Sharing a b qa qb s.tick :=
  @Sharing.step s a b qa qb .tick h ⟨trivial, trivial, trivial⟩

theorem lead_tick_first (hfirst : first = a) (hb : b ∈ rest) :
    s.tick.lead a b = s.lead a b + qb := by
  subst hfirst
  have hnext := h.tick
  have hbefore : Precedes s.runqueue first b := by
    rw [hqueue]
    exact precedes_head hb
  rw [lead_of_precedes hbefore, h.quantumSecond]
  rcases h.fair.used_tick hqueue with ⟨hrun, hused⟩ | ⟨hrun, hlast, hused⟩
  · have hafter : Precedes s.tick.runqueue first b := by
      rw [hrun]
      exact precedes_head hb
    rw [lead_of_precedes hafter, hnext.quantumSecond, hused, Int.mul_add, Int.mul_one]
  · have hafter : Precedes s.tick.runqueue b first := by
      rw [hrun]
      exact precedes_last hb
    rw [h.quantumFirst] at hlast
    rw [lead_of_follows hafter hnext.nodup, hnext.quantumFirst, hnext.quantumSecond,
      hused b h.second, ← hlast, Int.mul_add]
    omega

theorem lead_tick_second (hfirst : first = b) (ha : a ∈ rest) :
    s.tick.lead a b = s.lead a b - qa := by
  subst hfirst
  have hnext := h.tick
  have hbefore : Precedes s.runqueue first a := by
    rw [hqueue]
    exact precedes_head ha
  rw [lead_of_follows hbefore h.nodup, h.quantumFirst, h.quantumSecond]
  rcases h.fair.used_tick hqueue with ⟨hrun, hused⟩ | ⟨hrun, hlast, hused⟩
  · have hafter : Precedes s.tick.runqueue first a := by
      rw [hrun]
      exact precedes_head ha
    rw [lead_of_follows hafter hnext.nodup, hnext.quantumFirst, hnext.quantumSecond, hused,
      Int.mul_add]
    omega
  · have hafter : Precedes s.tick.runqueue a first := by
      rw [hrun]
      exact precedes_last ha
    rw [h.quantumSecond] at hlast
    rw [lead_of_precedes hafter, hused a h.first, ← hlast, Int.mul_comm _ (qa : Int), Int.mul_add]
    omega

theorem lead_tick_other (hne : a ≠ b) (ha : a ∈ rest) (hb : b ∈ rest) :
    s.tick.lead a b = s.lead a b := by
  have hnext := h.tick
  have hnodup := h.nodup
  rw [hqueue] at hnodup
  have horder : Precedes s.tick.runqueue a b ↔ Precedes s.runqueue a b := by
    rw [hqueue]
    rcases h.fair.used_tick hqueue with ⟨hrun, -⟩ | ⟨hrun, -⟩
    · rw [hrun]
    · rw [hrun]
      exact precedes_rotate_iff hnodup ha hb hne
  have hused : ∀ tid, tid ∈ rest → s.tick.used tid = 0 := by
    intro tid hmem
    rcases h.fair.used_tick hqueue with ⟨hrun, -⟩ | ⟨-, -, hused⟩
    · exact hnext.fair.used_behind hrun hmem
    · exact hused tid (hqueue ▸ List.mem_cons_of_mem _ hmem)
  by_cases hab : Precedes s.runqueue a b
  · rw [lead_of_precedes hab, lead_of_precedes (horder.mpr hab), hused a ha,
      h.fair.used_behind hqueue ha, Int.mul_zero, Int.mul_zero]
  · have hba := (precedes_or_precedes h.first h.second hne).resolve_left hab
    have hba' := (precedes_or_precedes hnext.first hnext.second hne).resolve_left
      fun hab' => hab (horder.mp hab')
    rw [lead_of_follows hba h.nodup, lead_of_follows hba' hnext.nodup, hused b hb,
      h.fair.used_behind hqueue hb, hnext.quantumFirst, hnext.quantumSecond, h.quantumFirst,
      h.quantumSecond]

end Tick

theorem lead_tick (h : Sharing a b qa qb s) (hne : a ≠ b) :
    s.tick.lead a b = s.lead a b + qb * (if s.charged = some a then 1 else 0) -
      qa * (if s.charged = some b then 1 else 0) := by
  obtain ⟨first, rest, hqueue⟩ := List.exists_cons_of_ne_nil (List.ne_nil_of_mem h.first)
  have hcharged : s.charged = some first := by
    rw [h.fair.charged_eq_head, hqueue, List.head?_cons]
  have ha := h.first
  have hb := h.second
  rw [hqueue] at ha hb
  rw [hcharged]
  simp only [Option.some.injEq]
  by_cases hfirst : first = a
  · have hsecond : first ≠ b := hfirst.trans_ne hne
    rw [if_pos hfirst, if_neg hsecond,
      h.lead_tick_first hqueue hfirst ((List.mem_cons.mp hb).resolve_left hsecond.symm)]
    omega
  · have ha' := (List.mem_cons.mp ha).resolve_left (Ne.symm hfirst)
    rw [if_neg hfirst]
    by_cases hsecond : first = b
    · rw [if_pos hsecond, h.lead_tick_second hqueue hsecond ha']
      omega
    · have hb' := (List.mem_cons.mp hb).resolve_left (Ne.symm hsecond)
      rw [if_neg hsecond, h.lead_tick_other hqueue hne ha' hb']
      omega

theorem lead_move {op : Op} (h : Sharing a b qa qb s) (hop : SparingBoth a b s op)
    (hne : a ≠ b) :
    (s.step op).lead a b = s.lead a b +
      qb * (if op = .tick ∧ s.charged = some a then 1 else 0) -
      qa * (if op = .tick ∧ s.charged = some b then 1 else 0) := by
  by_cases htick : op = .tick
  · subst htick
    simp only [true_and]
    exact h.lead_tick hne
  · simp only [htick, false_and, if_false]
    rw [h.lead_step hop htick hne]
    omega

end Sharing

/-! ## Runs -/

/-- Proportional shares.  From every state that adding fresh threads only leads to, and in
every run of calls that neither block nor remove them, two queued threads get ticks in
proportion to their quanta, up to one quantum of either. -/
theorem shares_in_proportion (setup : List Op) (hsetup : Guarded step AddsFresh start setup)
    {a b : Int} (ops : List Op) :
    let s := run step start setup
    a ∈ s.runqueue → b ∈ s.runqueue → Guarded step (SparingBoth a b) s ops →
    |(s.quantum b * served a s ops - s.quantum a * served b s ops : Int)| ≤
      s.quantum a * s.quantum b := by
  intro s ha hb hops
  have hfair : Fair s := run_of_guarded fair_step fair_start hsetup
  have hsharing : Sharing a b (s.quantum a) (s.quantum b) s := ⟨hfair, ha, hb, rfl, rfl⟩
  by_cases hne : a = b
  · subst hne
    rw [Int.sub_self, abs_zero]
    exact Int.mul_nonneg (Int.natCast_nonneg _) (Int.natCast_nonneg _)
  · have hstep : ∀ t op, Sharing a b (s.quantum a) (s.quantum b) t → SparingBoth a b t op →
        Sharing a b (s.quantum a) (s.quantum b) (t.step op) := fun t op h hop => h.step hop
    have hmoved : s.quantum b * served a s ops - s.quantum a * served b s ops =
        (run step s ops).lead a b - s.lead a b :=
      count_of_potential (fun t => t.lead a b) hstep (fun t op h hop => h.lead_move hop hne)
        hsharing hops
    have hend := (run_of_guarded hstep hsharing hops).lead_bounds
    have hstart := hsharing.lead_bounds
    rw [abs_le, hmoved, Int.mul_comm (s.quantum a : Int)]
    omega

/-- After two ticks with the timeslices 1 and 10, each thread has got one. -/
theorem shares_in_proportion_two :
    let s := run step start twoQueued
    served 1 s [.tick, .tick] = 1 ∧
    |(s.quantum 2 * served 1 s [.tick, .tick] - s.quantum 1 * served 2 s [.tick, .tick] : Int)| ≤
      s.quantum 1 * s.quantum 2 := by
  intro s
  have hsetup : Guarded step AddsFresh start twoQueued := by decide
  refine ⟨by decide, ?_⟩
  exact shares_in_proportion twoQueued hsetup [.tick, .tick] (by decide) (by decide) (by decide)

end ComputeKernel.Sched.Scheduler
