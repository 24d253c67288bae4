import ComputeKernel.Memory.Physical

/-!
# User pointers

The check of a pointer compares the end of the half-open range with the last user address,
so it refuses the ranges that end right behind that address.
-/

namespace ComputeKernel.Security

open Memory

/-- The range from `addr` on lies below the limit.  The process does not matter. -/
def validateUserPointer (addr size _pid : Int) : Bool :=
  if addr ≤ 0 ∨ size ≤ 0 then false
  else if addr + size > 0x00007FFFFFFFFFFF then false
  else true

def validateAddr (addr : Int) : Bool :=
  decide ((0 < addr ∧ addr ≤ 0x00007FFFFFFFFFFF) ∨
    (0xFFFF800000000000 ≤ addr ∧ addr ≤ 0xFFFFFFFFFFFFFFFF))

def UserAddr (addr : Int) : Prop :=
  0 < addr ∧ addr ≤ userMax

/-- The check accepts a pointer exactly when there are bytes and all are at user addresses,
by the one limit as by the other. -/
structure PointerExact (addr size pid : Int) : Prop where
  accepts : validateUserPointer addr size pid = true ↔
    0 < size ∧ ∀ a, addr ≤ a → a < addr + size → UserAddr a
  range : validateUserPointer addr size pid = true ↔
    0 < size ∧ ∀ a, addr ≤ a → a < addr + size → validateAddr a = true ∧ a < kernelBase

theorem userAddr_iff (addr : Int) :
    UserAddr addr ↔ validateAddr addr = true ∧ addr < kernelBase := by
  unfold UserAddr validateAddr userMax kernelBase
  rw [decide_eq_true_iff]
  omega

theorem validateUserPointer_eq_true {addr size : Int} (pid : Int) :
    validateUserPointer addr size pid = true ↔ 0 < addr ∧ 0 < size ∧ addr + size ≤ userMax := by
  unfold validateUserPointer userMax
  split
  · rename_i h
    exact iff_of_false Bool.false_ne_true fun hrange => by omega
  · split
    · rename_i h
      exact iff_of_false Bool.false_ne_true fun hrange => by omega
    · exact iff_of_true rfl (by omega)

theorem forall_userAddr_iff {addr size : Int} (h : 0 < size) :
    (∀ a, addr ≤ a → a < addr + size → UserAddr a) ↔
      0 < addr ∧ addr + size ≤ userMax + 1 := by
  unfold UserAddr
  constructor
  · intro hall
    have hfirst := hall addr (Int.le_refl addr) (by omega)
    have hlast := hall (addr + size - 1) (by omega) (by omega)
    omega
  · rintro ⟨hpos, hend⟩ a hle hlt
    omega

/-- The check is exact but for the ranges whose last byte is the last user byte. -/
theorem pointerExact_iff (addr size pid : Int) :
    PointerExact addr size pid ↔ ¬ (0 < addr ∧ 0 < size ∧ addr + size = userMax + 1) := by
  have hranges : (0 < size ∧ ∀ a, addr ≤ a → a < addr + size → UserAddr a) ↔
      0 < addr ∧ 0 < size ∧ addr + size ≤ userMax + 1 := by
    constructor
    · rintro ⟨hsize, hall⟩
      obtain ⟨haddr, hend⟩ := (forall_userAddr_iff hsize).mp hall
      exact ⟨haddr, hsize, hend⟩
    · rintro ⟨haddr, hsize, hend⟩
      exact ⟨hsize, (forall_userAddr_iff hsize).mpr ⟨haddr, hend⟩⟩
  have hexact : PointerExact addr size pid ↔
      (0 < addr ∧ 0 < size ∧ addr + size ≤ userMax ↔
        0 < addr ∧ 0 < size ∧ addr + size ≤ userMax + 1) := by
    rw [← hranges, ← validateUserPointer_eq_true pid]
    constructor
    · exact PointerExact.accepts
    · intro h
      refine ⟨h, h.trans ?_⟩
      simp only [userAddr_iff]
  rw [hexact]
  omega

theorem last_byte_refused :
    validateUserPointer 0x00007FFFFFFFFFFF 1 1 = false ∧
    validateAddr 0x00007FFFFFFFFFFF = true ∧
    ¬ PointerExact 0x00007FFFFFFFFFFF 1 1 := by
  refine ⟨by decide, by decide, ?_⟩
  intro h
  have haccepts := h.accepts.mpr ⟨by decide, fun a hle hlt => by unfold UserAddr userMax; omega⟩
  revert haccepts
  decide

end ComputeKernel.Security
