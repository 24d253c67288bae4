import ComputeKernel.Lib.BoundedDeque

/-!
# Tapes

A tape keeps all that was ever recorded, and how much of it is gone, because it was taken or
because no room was left for it.  A queue of bounded length is a window on a tape: what is
taken from it comes in the order of recording, each element at most once.
-/

namespace ComputeKernel.Lib

/-- More than what was recorded cannot be gone. -/
structure Tape (α : Type*) where
  recorded : List α
  gone : Nat
  gone_le : gone ≤ recorded.length

namespace Tape

variable {α : Type*}

def empty : Tape α :=
  ⟨[], 0, Nat.le_refl 0⟩

def pending (tape : Tape α) : List α :=
  tape.recorded.drop tape.gone

/-- Record at the end; no more than `room` elements stay. -/
def record (room : Nat) (tape : Tape α) (items : List α) : Tape α where
  recorded := tape.recorded ++ items
  gone := max tape.gone (tape.recorded.length + items.length - room)
  gone_le := by
    have := tape.gone_le
    rw [List.length_append]
    omega

def take (tape : Tape α) (n : Nat) : List α × Tape α :=
  (tape.pending.take n,
    { recorded := tape.recorded
      gone := min (tape.gone + n) tape.recorded.length
      gone_le := Nat.min_le_right _ _ })

theorem pending_record (room : Nat) (tape : Tape α) (items : List α) :
    (tape.record room items).pending =
      (tape.pending ++ items).drop (tape.pending.length + items.length - room) := by
  have hgone := tape.gone_le
  unfold pending record
  dsimp only
  rw [← List.drop_append_of_le_length hgone, List.drop_drop, List.length_drop]
  congr 1
  omega

theorem pending_take (tape : Tape α) (n : Nat) :
    (tape.take n).2.pending = tape.pending.drop n := by
  unfold take pending
  dsimp only
  rw [List.drop_drop]
  by_cases h : tape.gone + n ≤ tape.recorded.length
  · rw [Nat.min_eq_left h]
  · have hlength : tape.recorded.length ≤ tape.gone + n := by omega
    rw [Nat.min_eq_right hlength, List.drop_length, List.drop_of_length_le hlength]

theorem pending_record_sublist (room : Nat) (tape : Tape α) (items : List α) :
    (tape.record room items).pending.Sublist (tape.pending ++ items) := by
  rw [pending_record]
  exact List.drop_sublist _ _

/-! ## Queues of bounded length -/

section Queues

variable {room : Nat} {queue : BoundedDeque α room} {tape : Tape α}

def Shows (tape : Tape α) (queue : BoundedDeque α room) : Prop :=
  queue.items = tape.pending

theorem shows_empty : (empty : Tape α).Shows (BoundedDeque.empty : BoundedDeque α room) := rfl

theorem Shows.record (h : tape.Shows queue) (items : List α) :
    (tape.record room items).Shows (items.foldl BoundedDeque.append queue) := by
  unfold Shows at h ⊢
  rw [BoundedDeque.items_extend, pending_record, h]

end Queues

end Tape

end ComputeKernel.Lib
