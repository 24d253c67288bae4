import Mathlib.Data.List.Sort

/-!
# Sorting one more element into a sorted list

Insertion sort is stable: an element appended to a sorted list ends up behind all
elements that may stand before it.  The first element with some property is then the
old one or the new one.
-/

namespace ComputeKernel.Lib.StableSort

variable {α : Type*} {r : α → α → Prop} [DecidableRel r]

theorem filter_eq_nil_of_not_rel [IsTrans α r] {a x : α} {l : List α}
    (hfirst : ∀ b ∈ l, r a b) (hax : ¬ r a x) : l.filter (fun b => r b x) = [] := by
  rw [List.filter_eq_nil_iff]
  intro b hb hbx
  exact hax (IsTrans.trans a b x (hfirst b hb) (of_decide_eq_true hbx))

theorem filter_append_filter_not [IsTrans α r] {l : List α} (hl : l.Pairwise r) (x : α) :
    (l.filter fun a => r a x) ++ l.filter (fun a => ¬ r a x) = l := by
  induction l with
  | nil => rfl
  | cons a l ih =>
      obtain ⟨hfirst, hrest⟩ := List.pairwise_cons.mp hl
      by_cases hax : r a x
      · simpa [hax] using ih hrest
      · have hnone := filter_eq_nil_of_not_rel hfirst hax
        have hih := ih hrest
        rw [hnone, List.nil_append] at hih
        rw [List.filter_cons_of_neg (by simpa using hax), hnone,
          List.filter_cons_of_pos (by simpa using hax), hih, List.nil_append]

theorem insertionSort_concat [IsTrans α r] [Std.Total r] {l : List α} (hl : l.Pairwise r)
    (x : α) :
    (l ++ [x]).insertionSort r =
      (l.filter fun a => r a x) ++ x :: l.filter (fun a => ¬ r a x) := by
  induction l with
  | nil => rfl
  | cons a l ih =>
      obtain ⟨hfirst, hrest⟩ := List.pairwise_cons.mp hl
      rw [List.cons_append, List.insertionSort_cons, ih hrest]
      by_cases hax : r a x
      · rw [List.filter_cons_of_pos (by simpa using hax),
          List.filter_cons_of_neg (by simpa using hax), List.cons_append]
        cases hbefore : l.filter fun b => r b x with
        | nil => exact List.orderedInsert_cons_of_le r _ hax
        | cons b before =>
            have hb : b ∈ l := List.mem_of_mem_filter (hbefore ▸ List.mem_cons_self)
            exact List.orderedInsert_cons_of_le r _ (hfirst b hb)
      · have hnone := filter_eq_nil_of_not_rel hfirst hax
        have hsorted : l.orderedInsert r a = a :: l := by
          have hsort := hl.insertionSort_eq
          rwa [List.insertionSort_cons, hrest.insertionSort_eq] at hsort
        have hsplit := filter_append_filter_not hrest x
        rw [hnone, List.nil_append] at hsplit
        rw [List.filter_cons_of_neg (by simpa using hax), hnone,
          List.filter_cons_of_pos (by simpa using hax), hsplit, List.nil_append,
          List.nil_append, List.orderedInsert_of_not_le r _ hax, hsorted]

/-- The first element that satisfies `p` is the old one, unless the new one satisfies `p`
and belongs before it. -/
theorem find?_insertionSort_concat [IsTrans α r] [Std.Total r] {l : List α}
    (hl : l.Pairwise r) (p : α → Bool) (x : α) :
    ((l ++ [x]).insertionSort r).find? p =
      ((l.find? p).filter fun a => r a x).or
        ((if p x then some x else none).or (l.find? p)) := by
  have hold : l.find? p = ((l.filter fun a => r a x).find? p).or
      ((l.filter fun a => ¬ r a x).find? p) := by
    rw [← List.find?_append, filter_append_filter_not hl]
  have hbefore : ∀ a, (l.filter fun a => r a x).find? p = some a → r a x := by
    intro a ha
    simpa using List.of_mem_filter (List.mem_of_find?_eq_some ha)
  have hafter : ∀ b, (l.filter fun a => ¬ r a x).find? p = some b → ¬ r b x := by
    intro b hb
    simpa using List.of_mem_filter (List.mem_of_find?_eq_some hb)
  rw [insertionSort_concat hl, List.find?_append, hold, List.find?_cons]
  generalize (l.filter fun a => r a x).find? p = before at *
  generalize (l.filter fun a => ¬ r a x).find? p = after at *
  cases before with
  | some a => simp [Option.filter, hbefore a rfl]
  | none =>
      cases after with
      | none => by_cases hx : p x <;> simp [hx]
      | some b => by_cases hx : p x <;> simp [hx, Option.filter, hafter b rfl]

end ComputeKernel.Lib.StableSort
