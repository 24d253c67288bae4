import ComputeKernel.Kernel.Layout

/-!
# What `munmap` removes

The handler passes the address on and drops the length: the VMAs that start at the address
go as a whole, and no VMA is ever split.
-/

namespace ComputeKernel.Memory.AddressSpace

open VirtualMemoryArea

def InRange (start length addr : Int) : Prop :=
  start ≤ addr ∧ addr < start + length

def RangeRemoved (before after : AddressSpace) (start length : Int) : Prop :=
  ∀ addr, (after.Covered addr ↔ before.Covered addr ∧ ¬ InRange start length addr) ∧
    (after.Covered addr → after.flagsAt addr = before.flagsAt addr)

structure StartRemoved (before after : AddressSpace) (start : Int) : Prop where
  found : ∃ area ∈ before.areas, area.start = start
  areas : after.areas = before.areas.filter fun area => area.start ≠ start
  covered : ∀ addr, after.Covered addr ↔
    ∃ area ∈ before.areas, area.start ≠ start ∧ area.Contains addr
  flags : ∀ addr, after.flagsAt addr =
    (before.areas.find? fun area => area.start ≠ start ∧ area.Contains addr).map
      VirtualMemoryArea.flags
  /-- Where no VMAs overlap, everything else is mapped as before. -/
  apart : before.areas.Pairwise Apart → ∀ addr,
    (after.Covered addr ↔ before.Covered addr ∧
      ¬ ∃ area ∈ before.areas, area.start = start ∧ area.Contains addr) ∧
    (after.Covered addr → after.flagsAt addr = before.flagsAt addr)

/-- The VMAs that start at the address end in the range, and no other VMA meets it. -/
def Fills (space : AddressSpace) (start length : Int) : Prop :=
  ∀ area ∈ space.areas,
    if area.start = start then area.end_ ≤ start + length
    else ∀ addr, area.Contains addr → ¬ InRange start length addr

variable {space : AddressSpace} {start : Int}

theorem mem_unmap {area : VirtualMemoryArea} :
    area ∈ (space.unmap start).2.areas ↔ area ∈ space.areas ∧ area.start ≠ start := by
  simp [unmap]

theorem lookup_unmap (addr : Int) :
    (space.unmap start).2.lookup addr =
      space.areas.find? fun area => area.start ≠ start ∧ area.Contains addr := by
  unfold unmap lookup
  rw [List.find?_filter]
  congr 1
  funext area
  simp

theorem unmap_eq_true :
    (space.unmap start).1 = true ↔ ∃ area ∈ space.areas, area.start = start := by
  unfold unmap
  rw [decide_eq_true_iff, List.length_filter_lt_length_iff_exists]
  simp

theorem covered_unmap (addr : Int) :
    (space.unmap start).2.Covered addr ↔
      ∃ area ∈ space.areas, area.start ≠ start ∧ area.Contains addr := by
  simp only [Covered, mem_unmap, and_assoc]

theorem lookup_of_mem (h : space.areas.Pairwise Apart) {area : VirtualMemoryArea}
    (hmem : area ∈ space.areas) {addr : Int} (hcontains : area.Contains addr) :
    space.lookup addr = some area := by
  cases hlookup : space.lookup addr with
  | none =>
      have hnone := List.find?_eq_none.mp hlookup area hmem
      simp [hcontains] at hnone
  | some other =>
      have hother := List.mem_of_find?_eq_some hlookup
      have hcontains' : other.Contains addr := by simpa using List.find?_some hlookup
      rw [subsingleton_contains h addr ⟨hother, hcontains'⟩ ⟨hmem, hcontains⟩]

/-- An address that a remaining VMA contains is in no other, so it is looked up there before
and after. -/
theorem unmap_apart (h : space.areas.Pairwise Apart) (addr : Int) :
    ((space.unmap start).2.Covered addr ↔ space.Covered addr ∧
      ¬ ∃ area ∈ space.areas, area.start = start ∧ area.Contains addr) ∧
    ((space.unmap start).2.Covered addr →
      (space.unmap start).2.flagsAt addr = space.flagsAt addr) := by
  have hunique := subsingleton_contains h addr
  rw [covered_unmap]
  constructor
  · constructor
    · rintro ⟨area, hmem, hstart, hcontains⟩
      refine ⟨⟨area, hmem, hcontains⟩, ?_⟩
      rintro ⟨other, hother, hsame, hcontains'⟩
      have heq := hunique ⟨hmem, hcontains⟩ ⟨hother, hcontains'⟩
      rw [heq] at hstart
      exact hstart hsame
    · rintro ⟨⟨area, hmem, hcontains⟩, hnone⟩
      exact ⟨area, hmem, fun hstart => hnone ⟨area, hmem, hstart, hcontains⟩, hcontains⟩
  · rintro ⟨area, hmem, hstart, hcontains⟩
    have hfirst := lookup_of_mem h hmem hcontains
    have hafter := lookup_of_mem (h.sublist List.filter_sublist)
      (mem_unmap.mpr ⟨hmem, hstart⟩) hcontains
    unfold flagsAt
    rw [hfirst, hafter]

theorem startRemoved_unmap (h : (space.unmap start).1 = true) :
    StartRemoved space (space.unmap start).2 start where
  found := unmap_eq_true.mp h
  areas := rfl
  covered := covered_unmap
  flags addr := by
    unfold flagsAt
    rw [lookup_unmap]
  apart := unmap_apart

theorem rangeRemoved_iff {after : AddressSpace} (h : StartRemoved space after start)
    (hapart : space.areas.Pairwise Apart) {length : Int} (hlength : 0 < length) :
    RangeRemoved space after start length ↔ space.Fills start length := by
  constructor
  · intro hrange area hmem
    split
    · rename_i hstart
      by_contra hend
      -- the first address after the range was mapped and is not any more
      have hcontains : area.Contains (start + length) := by
        unfold Contains
        omega
      have hkept := (hrange (start + length)).1.mpr
        ⟨⟨area, hmem, hcontains⟩, by unfold InRange; omega⟩
      exact ((h.apart hapart _).1.mp hkept).2 ⟨area, hmem, hstart, hcontains⟩
    · rename_i hstart
      intro addr hcontains
      have hkept := (h.covered addr).mpr ⟨area, hmem, hstart, hcontains⟩
      exact ((hrange addr).1.mp hkept).2
  · intro hfills addr
    refine ⟨?_, (h.apart hapart addr).2⟩
    rw [h.covered]
    constructor
    · rintro ⟨area, hmem, hstart, hcontains⟩
      have hother := hfills area hmem
      rw [if_neg hstart] at hother
      exact ⟨⟨area, hmem, hcontains⟩, hother addr hcontains⟩
    · rintro ⟨⟨area, hmem, hcontains⟩, hout⟩
      refine ⟨area, hmem, fun hstart => hout ?_, hcontains⟩
      have hend := hfills area hmem
      rw [if_pos hstart] at hend
      obtain ⟨hlow, hhigh⟩ := hcontains
      exact ⟨hstart ▸ hlow, hhigh.trans_le hend⟩

end ComputeKernel.Memory.AddressSpace

namespace ComputeKernel.Kernel.KernelState

open Memory AddressSpace

/-- A call of `munmap` that succeeds removes the VMAs that start at the address, and so the
range it was given exactly when they fill it, if no VMAs overlap. -/
theorem munmap_removes_start {k : KernelState} {pid addr length : Int}
    (h : (k.sysMunmap pid addr length).1 = 0) :
    ∃ before after, k.vmm.addressSpaces.get? pid = some before ∧
      (k.sysMunmap pid addr length).2.vmm.addressSpaces.get? pid = some after ∧
      StartRemoved before after addr ∧
      (before.areas.Pairwise VirtualMemoryArea.Apart → 0 < length →
        (RangeRemoved before after addr length ↔ before.Fills addr length)) := by
  unfold sysMunmap at h ⊢
  by_cases haddr : addr = 0
  · rw [if_pos haddr] at h
    cases h
  · rw [if_neg haddr] at h ⊢
    cases hspace : k.vmm.addressSpaces.get? pid with
    | none =>
        simp only [VirtualMemoryManager.unmapPages, hspace] at h
        cases h
    | some before =>
        have hok : (before.unmap addr).1 = true := by
          by_contra hfalse
          simp only [VirtualMemoryManager.unmapPages, hspace, hfalse] at h
          cases h
        have hremoved := startRemoved_unmap hok
        exact ⟨before, (before.unmap addr).2, rfl,
          VirtualMemoryManager.get?_unmapPages_self hspace addr, hremoved,
          fun hapart hlength => rangeRemoved_iff hremoved hapart hlength⟩

theorem munmap_removes_start_text :
    (boot.sysMunmap 2 0x400000 0x1000).1 = 0 ∧
    ∃ before after, boot.vmm.addressSpaces.get? 2 = some before ∧
      (boot.sysMunmap 2 0x400000 0x1000).2.vmm.addressSpaces.get? 2 = some after ∧
      StartRemoved before after 0x400000 ∧
      (before.areas.Pairwise VirtualMemoryArea.Apart → 0 < (0x1000 : Int) →
        (RangeRemoved before after 0x400000 0x1000 ↔ before.Fills 0x400000 0x1000)) := by
  have hresult : (boot.sysMunmap 2 0x400000 0x1000).1 = 0 := by decide +kernel
  exact ⟨hresult, munmap_removes_start hresult⟩

/-- The first half of the text VMA is unmapped, and the second half goes with it. -/
theorem munmap_half :
    ∃ before after, boot.vmm.addressSpaces.get? 2 = some before ∧
      (boot.sysMunmap 2 0x400000 0x800).1 = 0 ∧
      (boot.sysMunmap 2 0x400000 0x800).2.vmm.addressSpaces.get? 2 = some after ∧
      ¬ RangeRemoved before after 0x400000 0x800 := by
  let before := VirtualMemoryManager.newAddressSpace 2
  refine ⟨before, (before.unmap 0x400000).2, by decide +kernel, by decide +kernel,
    by decide +kernel, fun hrange => ?_⟩
  have hkept := (hrange 0x400800).1.mpr
  rw [covered_unmap] at hkept
  have hmapped : before.Covered 0x400800 :=
    ⟨⟨0x400000, 0x401000, "r-x".toList, "[text]".toList⟩, by decide, by decide⟩
  obtain ⟨area, hmem, hstart, hcontains⟩ := hkept ⟨hmapped, by unfold InRange; decide⟩
  have hnone : ∀ area ∈ before.areas, area.start ≠ 0x400000 → ¬ area.Contains 0x400800 := by
    decide
  exact hnone area hmem hstart hcontains

end ComputeKernel.Kernel.KernelState
