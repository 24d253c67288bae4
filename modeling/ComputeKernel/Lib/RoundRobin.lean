import Mathlib.Algebra.BigOperators.Group.List.Basic
import Mathlib.Algebra.Ring.Nat
import Mathlib.Logic.Function.Iterate

/-!
# The round-robin rota

A rota serves the head of a queue until its quantum is used up, and then moves
it to the back.  Starting with a fresh quantum, the element served at step `k`
is the `k`-th element of the endless repetition of one round, in which every
element of the queue occurs as often in a row as its quantum says.
-/

namespace ComputeKernel.Lib.RoundRobin

variable {α : Type*} (quantum : α → Nat)

/-- The queue, the steps left for its head, and the number of finished quanta. -/
structure Rota (α : Type*) where
  queue : List α
  left : Nat
  turns : Nat

def headQuantum : List α → Nat
  | [] => 0
  | a :: _ => quantum a

def fresh (queue : List α) (turns : Nat) : Rota α :=
  ⟨queue, headQuantum quantum queue, turns⟩

/-- Serve the head once; the last step of its quantum moves it to the back. -/
def serve (rota : Rota α) : Rota α :=
  match rota.queue with
  | [] => rota
  | a :: rest =>
      if rota.left ≤ 1 then fresh quantum (rest ++ [a]) (rota.turns + 1)
      else { rota with left := rota.left - 1 }

def round (queue : List α) : List α :=
  queue.flatMap fun a => List.replicate (quantum a) a

variable {quantum}

theorem round_length (queue : List α) :
    (round quantum queue).length = (queue.map quantum).sum := by
  simp [round, List.length_flatMap]

theorem iterate_within (a : α) (rest : List α) (turns : Nat) {left k : Nat}
    (hk : k < left) :
    (serve quantum)^[k] ⟨a :: rest, left, turns⟩ = ⟨a :: rest, left - k, turns⟩ := by
  induction k with
  | zero => rfl
  | succ k ih =>
      rw [Function.iterate_succ_apply', ih (by omega)]
      have hleft : ¬ left - k ≤ 1 := by omega
      simp only [serve, hleft, if_false, Rota.mk.injEq, true_and, and_true]
      omega

theorem iterate_quantum (a : α) (rest : List α) (turns : Nat)
    (hquantum : 0 < quantum a) :
    (serve quantum)^[quantum a] (fresh quantum (a :: rest) turns) =
      fresh quantum (rest ++ [a]) (turns + 1) := by
  obtain ⟨m, hm⟩ := Nat.exists_eq_succ_of_ne_zero (Nat.pos_iff_ne_zero.mp hquantum)
  rw [fresh, headQuantum, hm, Function.iterate_succ_apply',
    iterate_within a rest turns (Nat.lt_succ_self m)]
  simp [serve]

variable (hquantum : ∀ a, 0 < quantum a)
include hquantum

theorem iterate_section (front rest : List α) (turns : Nat) :
    (serve quantum)^[(front.map quantum).sum] (fresh quantum (front ++ rest) turns) =
      fresh quantum (rest ++ front) (turns + front.length) := by
  induction front generalizing rest turns with
  | nil => simp
  | cons a front ih =>
      rw [List.map_cons, List.sum_cons, Nat.add_comm, Function.iterate_add_apply,
        List.cons_append, iterate_quantum a (front ++ rest) turns (hquantum a),
        List.append_assoc, ih (rest ++ [a]) (turns + 1)]
      simp only [List.append_assoc, List.singleton_append, List.length_cons]
      congr 1
      omega

theorem iterate_round (queue : List α) (turns : Nat) :
    (serve quantum)^[(round quantum queue).length] (fresh quantum queue turns) =
      fresh quantum queue (turns + queue.length) := by
  simpa [round_length] using iterate_section hquantum queue [] turns

theorem head_iterate_of_lt (queue rest : List α) (turns : Nat) {k : Nat}
    (hk : k < (round quantum queue).length) :
    ((serve quantum)^[k] (fresh quantum (queue ++ rest) turns)).queue.head? =
      (round quantum queue)[k]? := by
  induction queue generalizing rest turns k with
  | nil => simp [round] at hk
  | cons a queue ih =>
      have hround : round quantum (a :: queue) =
          List.replicate (quantum a) a ++ round quantum queue := rfl
      rw [hround, List.length_append, List.length_replicate] at hk
      rw [hround]
      by_cases hwithin : k < quantum a
      · rw [List.getElem?_append_left (by simpa using hwithin),
          List.getElem?_replicate_of_lt hwithin, List.cons_append]
        exact congrArg (fun rota : Rota α => rota.queue.head?)
          (iterate_within a (queue ++ rest) turns hwithin)
      · have hsplit : k = (k - quantum a) + quantum a := by omega
        rw [List.getElem?_append_right (by simpa using Nat.le_of_not_lt hwithin),
          List.length_replicate]
        conv_lhs => rw [hsplit, Function.iterate_add_apply, List.cons_append,
          iterate_quantum a (queue ++ rest) turns (hquantum a), List.append_assoc]
        exact ih (rest ++ [a]) (turns + 1) (by omega)

theorem iterate_rounds (queue : List α) (turns rounds : Nat) :
    (serve quantum)^[(round quantum queue).length * rounds] (fresh quantum queue turns) =
      fresh quantum queue (turns + queue.length * rounds) := by
  induction rounds with
  | zero => rfl
  | succ rounds ih =>
      rw [Nat.mul_succ, Nat.add_comm, Function.iterate_add_apply, ih,
        iterate_round hquantum, Nat.mul_succ, Nat.add_assoc]

theorem head_iterate (queue : List α) (turns : Nat) (hqueue : queue ≠ []) (k : Nat) :
    ((serve quantum)^[k] (fresh quantum queue turns)).queue.head? =
      (round quantum queue)[k % (round quantum queue).length]? := by
  have hpos : 0 < (round quantum queue).length := by
    obtain ⟨a, rest, rfl⟩ := List.exists_cons_of_ne_nil hqueue
    rw [round_length, List.map_cons, List.sum_cons]
    exact Nat.add_pos_left (hquantum a) _
  conv_lhs =>
    rw [← Nat.mod_add_div k (round quantum queue).length, Function.iterate_add_apply,
      iterate_rounds hquantum]
  have hfirst := head_iterate_of_lt hquantum queue []
    (turns + queue.length * (k / (round quantum queue).length))
    (Nat.mod_lt k hpos)
  rwa [List.append_nil] at hfirst

end ComputeKernel.Lib.RoundRobin
