import Mathlib.Data.List.Basic

/-!
# Double-ended queues of bounded length

A queue with a maximal length drops elements at its front when one is appended to a full
one.  Appending many leaves the last elements of all.
-/

namespace ComputeKernel.Lib

/-- A queue of at most `maxlen` elements; a longer one cannot be built. -/
structure BoundedDeque (α : Type*) (maxlen : Nat) where
  items : List α
  length_le : items.length ≤ maxlen

namespace BoundedDeque

variable {α : Type*} {maxlen : Nat}

def empty : BoundedDeque α maxlen :=
  ⟨[], Nat.zero_le _⟩

/-- Append at the back, dropping the front element of a full queue. -/
def append (queue : BoundedDeque α maxlen) (item : α) : BoundedDeque α maxlen where
  items := (queue.items ++ [item]).drop (queue.items.length + 1 - maxlen)
  length_le := by
    rw [List.length_drop, List.length_append, List.length_singleton]
    omega

def popleft (queue : BoundedDeque α maxlen) : Option (α × BoundedDeque α maxlen) :=
  match queue with
  | ⟨[], _⟩ => none
  | ⟨item :: items, h⟩ => some (item, ⟨items, Nat.le_of_succ_le h⟩)

def popMany : Nat → BoundedDeque α maxlen → List α × BoundedDeque α maxlen
  | 0, queue => ([], queue)
  | n + 1, queue =>
      match queue.popleft with
      | none => ([], queue)
      | some (item, queue) => (item :: (popMany n queue).1, (popMany n queue).2)

theorem items_extend (queue : BoundedDeque α maxlen) (items : List α) :
    (items.foldl append queue).items =
      (queue.items ++ items).drop (queue.items.length + items.length - maxlen) := by
  induction items generalizing queue with
  | nil =>
      have := queue.length_le
      have hdrop : queue.items.length - maxlen = 0 := by omega
      simp [hdrop]
  | cons item items ih =>
      have := queue.length_le
      rw [List.foldl_cons, ih]
      simp only [append]
      by_cases hfull : queue.items.length + 1 ≤ maxlen
      · have hnone : queue.items.length + 1 - maxlen = 0 := by omega
        simp only [hnone, List.drop_zero, List.append_assoc, List.singleton_append,
          List.length_append, List.length_cons, List.length_nil]
        congr 1
        omega
      · -- the queue is full, so one element is dropped now and the others later
        have hone : queue.items.length + 1 - maxlen = 1 := by omega
        rw [hone, ← List.drop_append_of_le_length (by simp), List.drop_drop,
          List.append_assoc, List.singleton_append]
        congr 1
        simp only [List.length_drop, List.length_append, List.length_cons, List.length_nil]
        omega

theorem items_extend_of_le {queue : BoundedDeque α maxlen} {items : List α}
    (h : queue.items.length + items.length ≤ maxlen) :
    (items.foldl append queue).items = queue.items ++ items := by
  rw [items_extend, Nat.sub_eq_zero_of_le h, List.drop_zero]

theorem length_extend (queue : BoundedDeque α maxlen) (items : List α) :
    (items.foldl append queue).items.length =
      min (queue.items.length + items.length) maxlen := by
  rw [items_extend, List.length_drop, List.length_append]
  omega

theorem popMany_eq (n : Nat) (queue : BoundedDeque α maxlen) :
    (popMany n queue).1 = queue.items.take n ∧
      (popMany n queue).2.items = queue.items.drop n := by
  induction n generalizing queue with
  | zero => exact ⟨rfl, rfl⟩
  | succ n ih =>
      rcases queue with ⟨items, h⟩
      cases items with
      | nil => exact ⟨rfl, rfl⟩
      | cons item items =>
          obtain ⟨htaken, hleft⟩ := ih ⟨items, Nat.le_of_succ_le h⟩
          exact ⟨congrArg (List.cons item) htaken, hleft⟩

end BoundedDeque

end ComputeKernel.Lib
