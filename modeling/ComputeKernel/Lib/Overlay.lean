import Mathlib.Data.List.Basic

/-!
# Laying one list over another

`overlay fill old offset new` is `old` with `new` in place of the entries from `offset`
on; a gap behind the end of `old` is filled with `fill`.
-/

namespace ComputeKernel.Lib

variable {α : Type*}

def overlayAt (fill : α) (old : List α) (offset : Nat) (new : List α) (i : Nat) : α :=
  if offset ≤ i ∧ i < offset + new.length then new[i - offset]?.getD fill
  else old[i]?.getD fill

def overlay (fill : α) (old : List α) (offset : Nat) (new : List α) : List α :=
  (List.range (max old.length (offset + new.length))).map (overlayAt fill old offset new)

@[simp] theorem length_overlay (fill : α) (old : List α) (offset : Nat) (new : List α) :
    (overlay fill old offset new).length = max old.length (offset + new.length) := by
  simp [overlay]

theorem getElem?_overlay (fill : α) (old : List α) (offset : Nat) (new : List α) {i : Nat}
    (h : i < max old.length (offset + new.length)) :
    (overlay fill old offset new)[i]? = some (overlayAt fill old offset new i) := by
  rw [overlay, List.getElem?_map, List.getElem?_range h, Option.map_some]

theorem overlayAt_of_le (fill : α) {old : List α} {offset : Nat} {new : List α} {i : Nat}
    (h : max old.length (offset + new.length) ≤ i) : overlayAt fill old offset new i = fill := by
  have hrange : ¬ (offset ≤ i ∧ i < offset + new.length) := by omega
  have hold : old.length ≤ i := by omega
  rw [overlayAt, if_neg hrange, List.getElem?_eq_none hold, Option.getD_none]

@[simp] theorem getD_overlay (fill : α) (old : List α) (offset : Nat) (new : List α) (i : Nat) :
    (overlay fill old offset new)[i]?.getD fill = overlayAt fill old offset new i := by
  by_cases h : i < max old.length (offset + new.length)
  · rw [getElem?_overlay fill old offset new h, Option.getD_some]
  · have hle := Nat.le_of_not_lt h
    rw [overlayAt_of_le fill hle, List.getElem?_eq_none, Option.getD_none]
    rwa [length_overlay]

theorem ext_getD {left right : List α} (fill : α) (hlength : left.length = right.length)
    (h : ∀ i : Nat, left[i]?.getD fill = right[i]?.getD fill) : left = right := by
  apply List.ext_getElem hlength
  intro i hleft hright
  have hi := h i
  rwa [List.getElem?_eq_getElem hleft, List.getElem?_eq_getElem hright] at hi

theorem overlay_eq_append (fill : α) {old : List α} {offset : Nat} (new : List α)
    (h : offset ≤ old.length) :
    overlay fill old offset new =
      old.take offset ++ new ++ old.drop (offset + new.length) := by
  apply ext_getD fill
  · simp only [length_overlay, List.length_append, List.length_take, List.length_drop]
    omega
  · intro i
    have htake : (old.take offset).length = offset := List.length_take_of_le h
    rw [getD_overlay, overlayAt, List.append_assoc, List.getElem?_append, htake,
      List.getElem?_append, List.getElem?_take, List.getElem?_drop]
    by_cases hbefore : i < offset
    · rw [if_neg (by omega), if_pos hbefore, if_pos hbefore]
    · by_cases hnew : i < offset + new.length
      · rw [if_pos ⟨by omega, hnew⟩, if_neg hbefore, if_pos (by omega)]
      · have hrest : offset + new.length + (i - offset - new.length) = i := by omega
        rw [if_neg (by omega), if_neg hbefore, if_neg (by omega), hrest]

theorem overlay_pad (fill : α) {old : List α} {offset : Nat} (new : List α)
    (h : old.length ≤ offset) :
    overlay fill (old ++ List.replicate (offset - old.length) fill) offset new =
      overlay fill old offset new := by
  have hpad : ∀ i : Nat, (old ++ List.replicate (offset - old.length) fill)[i]?.getD fill =
      old[i]?.getD fill := by
    intro i
    rw [List.getElem?_append, List.getElem?_replicate]
    split
    · rfl
    · rename_i hold
      rw [List.getElem?_eq_none (Nat.le_of_not_lt hold)]
      split <;> rfl
  apply ext_getD fill
  · simp only [length_overlay, List.length_append, List.length_replicate]
    omega
  · intro i
    rw [getD_overlay, getD_overlay, overlayAt, overlayAt, hpad]

theorem overlay_comm (fill : α) (old : List α) {first second : Nat} {xs ys : List α}
    (h : ∀ i, ¬ ((first ≤ i ∧ i < first + xs.length) ∧
      (second ≤ i ∧ i < second + ys.length))) :
    overlay fill (overlay fill old first xs) second ys =
      overlay fill (overlay fill old second ys) first xs := by
  apply ext_getD fill
  · simp only [length_overlay]
    omega
  · intro i
    have hi := h i
    rw [getD_overlay, getD_overlay, overlayAt, overlayAt, getD_overlay, getD_overlay,
      overlayAt, overlayAt]
    by_cases hfirst : first ≤ i ∧ i < first + xs.length
    · have hsecond : ¬ (second ≤ i ∧ i < second + ys.length) := fun hin => hi ⟨hfirst, hin⟩
      rw [if_neg hsecond, if_pos hfirst, if_pos hfirst]
    · rw [if_neg hfirst, if_neg hfirst]

example : overlay 0 [1, 2] 3 [7, 8] = [1, 2, 0, 7, 8] := by decide

end ComputeKernel.Lib
