import Mathlib.Data.List.Nodup

/-!
# Precedence in a queue

One element of a queue without repeats stands before another.  Appending elements, and
dropping others, leaves this as it is; moving the first element to the back makes it the
last.
-/

namespace ComputeKernel.Lib

variable {α : Type*} {a b first : α} {queue sub rest : List α}

def Precedes (queue : List α) (a b : α) : Prop :=
  [a, b].Sublist queue

theorem Precedes.of_sublist (h : Precedes sub a b) (hsub : sub.Sublist queue) :
    Precedes queue a b :=
  List.Sublist.trans h hsub

theorem precedes_head (h : b ∈ rest) : Precedes (a :: rest) a b :=
  (List.singleton_sublist.mpr h).cons_cons a

theorem precedes_last (h : a ∈ rest) : Precedes (rest ++ [b]) a b :=
  (List.singleton_sublist.mpr h).append (List.Sublist.refl [b])

theorem Precedes.asymm (h : Precedes queue a b) (hnodup : queue.Nodup) :
    ¬ Precedes queue b a := by
  intro h'
  induction queue with
  | nil => cases h
  | cons c queue ih =>
      obtain ⟨hc, hrest⟩ := List.nodup_cons.mp hnodup
      rcases List.cons_sublist_cons'.mp h with hbehind | ⟨rfl, hb⟩
      · rcases List.cons_sublist_cons'.mp h' with hbehind' | ⟨rfl, ha⟩
        · exact ih hbehind hrest hbehind'
        · exact hc (hbehind.subset (by simp))
      · rcases List.cons_sublist_cons'.mp h' with hbehind' | ⟨rfl, -⟩
        · exact hc (hbehind'.subset (by simp))
        · exact hc (List.singleton_sublist.mp hb)

theorem precedes_or_precedes (ha : a ∈ queue) (hb : b ∈ queue) (hne : a ≠ b) :
    Precedes queue a b ∨ Precedes queue b a := by
  induction queue with
  | nil => cases ha
  | cons c queue ih =>
      rcases List.mem_cons.mp ha with rfl | ha'
      · exact Or.inl (precedes_head ((List.mem_cons.mp hb).resolve_left hne.symm))
      · rcases List.mem_cons.mp hb with rfl | hb'
        · exact Or.inr (precedes_head ha')
        · exact (ih ha' hb').imp (fun h => h.cons c) fun h => h.cons c

theorem precedes_sublist_iff (hsub : sub.Sublist queue) (hnodup : queue.Nodup) (ha : a ∈ sub)
    (hb : b ∈ sub) (hne : a ≠ b) : Precedes sub a b ↔ Precedes queue a b := by
  refine ⟨fun h => h.of_sublist hsub, fun h => ?_⟩
  rcases precedes_or_precedes ha hb hne with hab | hba
  · exact hab
  · exact absurd (hba.of_sublist hsub) (h.asymm hnodup)

theorem precedes_append_iff (hnodup : (queue ++ rest).Nodup) (ha : a ∈ queue) (hb : b ∈ queue)
    (hne : a ≠ b) : Precedes (queue ++ rest) a b ↔ Precedes queue a b :=
  (precedes_sublist_iff (List.sublist_append_left queue rest) hnodup ha hb hne).symm

theorem precedes_rotate_iff (hnodup : (first :: rest).Nodup) (ha : a ∈ rest) (hb : b ∈ rest)
    (hne : a ≠ b) : Precedes (rest ++ [first]) a b ↔ Precedes (first :: rest) a b := by
  have hrotated : (rest ++ [first]).Nodup := (List.perm_append_singleton first rest).nodup_iff.mpr
    hnodup
  rw [precedes_append_iff hrotated ha hb hne,
    precedes_sublist_iff (List.sublist_cons_self first rest) hnodup ha hb hne]

end ComputeKernel.Lib
