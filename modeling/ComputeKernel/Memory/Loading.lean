import ComputeKernel.Memory.Layout

/-!
# All or nothing

A load should map every segment and the stack, or report a failure and leave nothing
behind.  What it does instead is to map whatever there are frames for.
-/

namespace ComputeKernel.Memory

open Lib

namespace VirtualMemoryManager

def FramesFor (vmm : VirtualMemoryManager) (areas : List VirtualMemoryArea) : Prop :=
  (∀ area ∈ areas, 0 < area.size) ∧ framesNeeded areas ≤ vmm.pmm.freePages

def FramesForNone (vmm : VirtualMemoryManager) (areas : List VirtualMemoryArea) : Prop :=
  ∀ area ∈ areas, ¬ (0 < area.size ∧ (pagesNeeded area.size).toNat ≤ vmm.pmm.freePages)

instance (vmm : VirtualMemoryManager) (areas : List VirtualMemoryArea) :
    Decidable (vmm.FramesFor areas) :=
  inferInstanceAs (Decidable (_ ∧ _))

instance (vmm : VirtualMemoryManager) (areas : List VirtualMemoryArea) :
    Decidable (vmm.FramesForNone areas) :=
  inferInstanceAs (Decidable (∀ area ∈ areas, ¬ (_ ∧ _)))

/-- The VMAs are there after those of before, and each has been given frames of its own,
as many as its size needs; nothing else happened to the frames. -/
structure Mapped (before after : VirtualMemoryManager) (pid : Int)
    (areas : List VirtualMemoryArea) : Prop where
  vmas : ∃ space, before.addressSpaces.get? pid = some space ∧
    after.addressSpaces.get? pid = some { space with areas := space.areas ++ areas }
  frames : ∃ taken : List (List Int),
    List.Forall₂ (fun area pfns => pfns.length = (pagesNeeded area.size).toNat) areas taken ∧
    taken.flatten.Nodup ∧ (∀ pfn ∈ taken.flatten, pfn ∈ before.pmm.freeFrames) ∧
    after.pmm = before.pmm.assign taken.flatten true pid (by simp)

theorem granted_sublist (free : Nat) (areas : List VirtualMemoryArea) :
    (granted free areas).Sublist areas := by
  induction areas generalizing free with
  | nil => exact List.Sublist.refl []
  | cons area areas ih =>
      rw [granted]
      split
      · exact (ih _).cons_cons area
      · exact (ih _).cons area

theorem granted_eq_self_iff {free : Nat} {areas : List VirtualMemoryArea} :
    granted free areas = areas ↔
      (∀ area ∈ areas, 0 < area.size) ∧ framesNeeded areas ≤ free := by
  constructor
  · intro h
    induction areas generalizing free with
    | nil => exact ⟨by simp, Nat.zero_le _⟩
    | cons area areas ih =>
        rw [granted] at h
        split at h
        · rename_i hfits
          obtain ⟨hsize, htotal⟩ := ih (List.cons.inj h).2
          refine ⟨List.forall_mem_cons.mpr ⟨hfits.1, hsize⟩, ?_⟩
          change (pagesNeeded area.size).toNat + framesNeeded areas ≤ free
          omega
        · have hlength := (granted_sublist free areas).length_le
          rw [h, List.length_cons] at hlength
          omega
  · rintro ⟨hsize, htotal⟩
    exact granted_eq_self hsize htotal

theorem granted_eq_nil_iff {vmm : VirtualMemoryManager} {areas : List VirtualMemoryArea} :
    granted vmm.pmm.freePages areas = [] ↔ vmm.FramesForNone areas := by
  unfold FramesForNone
  induction areas with
  | nil => simp [granted]
  | cons area areas ih =>
      rw [granted, List.forall_mem_cons, ← ih]
      split
      · rename_i hfits
        simp [hfits]
      · rename_i hfits
        exact (and_iff_right hfits).symm

theorem mapAll_of_none {vmm : VirtualMemoryManager} {areas : List VirtualMemoryArea}
    (h : vmm.FramesForNone areas) (pid : Int) : vmm.mapAll pid areas = vmm := by
  induction areas with
  | nil => rfl
  | cons area areas ih =>
      obtain ⟨hfirst, hrest⟩ := List.forall_mem_cons.mp h
      have hfits : ¬ vmm.Fits pid area.size := fun hfits => hfirst hfits.2
      change (vmm.mapPages pid area.start area.size area.flags area.name).2.mapAll pid areas = vmm
      rw [mapPages_of_not_fits hfits]
      exact ih hrest

theorem pmm_mapAll {vmm : VirtualMemoryManager} {pid : Int} (hmem : pid ∈ vmm.addressSpaces)
    {areas : List VirtualMemoryArea} (h : vmm.FramesFor areas) :
    ∃ taken : List (List Int),
      List.Forall₂ (fun area pfns => pfns.length = (pagesNeeded area.size).toNat) areas taken ∧
      taken.flatten <+: vmm.pmm.freeFrames ∧
      (vmm.mapAll pid areas).pmm = vmm.pmm.assign taken.flatten true pid (by simp) := by
  induction areas generalizing vmm with
  | nil =>
      refine ⟨[], List.Forall₂.nil, List.nil_prefix, ?_⟩
      exact (vmm.pmm.assign_nil _ _ _).symm
  | cons area areas ih =>
      obtain ⟨hsize, htotal⟩ := h
      obtain ⟨hpos, hsizes⟩ := List.forall_mem_cons.mp hsize
      change (pagesNeeded area.size).toNat + framesNeeded areas ≤ vmm.pmm.freePages at htotal
      generalize hn : (pagesNeeded area.size).toNat = n at htotal
      obtain ⟨space, hspace⟩ := Dict.mem_iff_exists.mp hmem
      change ∃ taken, _ ∧ _ ∧
        ((vmm.mapPages pid area.start area.size area.flags area.name).2.mapAll pid areas).pmm = _
      generalize hnext : (vmm.mapPages pid area.start area.size area.flags area.name).2 = next
      have hpmmNext : next.pmm =
          vmm.pmm.assign (vmm.pmm.freeFrames.take n) true pid (by simp) := by
        rw [← hnext, mapPages_of_le hspace hpos (by omega), hn]
      have hmemNext : pid ∈ next.addressSpaces := by
        rw [← hnext, mem_mapPages]
        exact hmem
      have hfree : next.pmm.freePages + n = vmm.pmm.freePages := by
        rw [hpmmNext]
        exact vmm.pmm.freePages_assign_front (by omega) pid
      have hsplit := (List.take_append_drop n vmm.pmm.freeFrames).symm
      obtain ⟨taken, hlengths, hprefix, hpmm⟩ := ih hmemNext ⟨hsizes, by omega⟩
      rw [hpmmNext, PhysicalMemoryManager.freeFrames_assign_front hsplit pid] at hprefix
      have hlength : (vmm.pmm.freeFrames.take n).length = n := by
        rw [List.length_take, PhysicalMemoryManager.freeFrames_length]
        omega
      refine ⟨vmm.pmm.freeFrames.take n :: taken,
        List.Forall₂.cons (hlength.trans hn.symm) hlengths, ?_, ?_⟩
      · rw [List.flatten_cons]
        conv_rhs => rw [hsplit]
        exact (List.prefix_append_right_inj _).mpr hprefix
      · simp only [hpmm, hpmmNext, PhysicalMemoryManager.assign_assign, List.flatten_cons]

end VirtualMemoryManager

namespace ElfLoader

open VirtualMemoryManager

def AllOrNothing (vmm : VirtualMemoryManager) (elf : FakeElf) (pid : Int) : Prop :=
  ((load vmm elf pid).1 = elf.entryPoint ∧ Mapped vmm (load vmm elf pid).2 pid elf.areas) ∨
    ((load vmm elf pid).1 = -1 ∧ (load vmm elf pid).2 = vmm)

theorem load_of_not_mem {vmm : VirtualMemoryManager} {pid : Int}
    (h : pid ∉ vmm.addressSpaces) (elf : FakeElf) : load vmm elf pid = (-1, vmm) := by
  unfold load
  rw [Dict.get?_eq_none.mpr h]

theorem mapped_load {vmm : VirtualMemoryManager} {pid : Int} (hmem : pid ∈ vmm.addressSpaces)
    {elf : FakeElf} : Mapped vmm (load vmm elf pid).2 pid elf.areas ↔ vmm.FramesFor elf.areas := by
  obtain ⟨space, hspace⟩ := Dict.mem_iff_exists.mp hmem
  have hareas := get?_mapAll hspace elf.areas
  rw [load_eq hmem]
  constructor
  · intro h
    obtain ⟨old, hold, hmapped⟩ := h.vmas
    rw [hspace] at hold
    cases hold
    rw [hareas] at hmapped
    simp only [Option.some.injEq, AddressSpace.mk.injEq, true_and,
      List.append_cancel_left_eq] at hmapped
    exact granted_eq_self_iff.mp hmapped
  · intro h
    obtain ⟨taken, hlengths, hprefix, hpmm⟩ := pmm_mapAll hmem h
    constructor
    · rw [granted_eq_self_iff.mpr h] at hareas
      exact ⟨space, hspace, hareas⟩
    · exact ⟨taken, hlengths, vmm.pmm.freeFrames_nodup.sublist hprefix.sublist,
        fun pfn hpfn => hprefix.subset hpfn, hpmm⟩

theorem load_eq_self_iff {vmm : VirtualMemoryManager} {pid : Int}
    (hmem : pid ∈ vmm.addressSpaces) {elf : FakeElf} :
    (load vmm elf pid).2 = vmm ↔ vmm.FramesForNone elf.areas := by
  rw [load_eq hmem]
  constructor
  · intro h
    obtain ⟨space, hspace⟩ := Dict.mem_iff_exists.mp hmem
    have hareas := get?_mapAll hspace elf.areas
    dsimp only at h
    rw [h, hspace] at hareas
    simp only [Option.some.injEq] at hareas
    have := congrArg AddressSpace.areas hareas
    exact granted_eq_nil_iff.mp (List.self_eq_append_right.mp this)
  · intro h
    exact mapAll_of_none h pid

/-- A load is all or nothing where the process has no address space, or there are frames for
every segment and the stack.  It can also return -1 as the entry point, with nothing mapped. -/
theorem allOrNothing_iff (vmm : VirtualMemoryManager) (elf : FakeElf) (pid : Int) :
    AllOrNothing vmm elf pid ↔
      pid ∉ vmm.addressSpaces ∨ vmm.FramesFor elf.areas ∨
        (elf.entryPoint = -1 ∧ vmm.FramesForNone elf.areas) := by
  by_cases hmem : pid ∈ vmm.addressSpaces
  · have hresult : (load vmm elf pid).1 = elf.entryPoint := by rw [load_eq hmem]
    rw [AllOrNothing, hresult, mapped_load hmem, load_eq_self_iff hmem]
    simp [hmem]
  · refine iff_of_true ?_ (Or.inl hmem)
    unfold AllOrNothing
    rw [load_of_not_mem hmem]
    exact Or.inr ⟨rfl, rfl⟩

/-- With two frames the text and the data are mapped, bss and the stack are not, and the
entry point is returned all the same. -/
theorem partial_load :
    ¬ AllOrNothing
      ((init (PhysicalMemoryManager.init 2)).createAddressSpace 1)
      (FakeElf.makeSimple "init".toList 0x400000) 1 := by
  set vmm := (init (PhysicalMemoryManager.init 2)).createAddressSpace 1 with hvmm
  have hmem : (1 : Int) ∈ vmm.addressSpaces := by decide
  have hall : ¬ vmm.FramesFor (FakeElf.makeSimple "init".toList 0x400000).areas := by decide
  intro h
  rcases h with ⟨-, hmapped⟩ | ⟨hresult, -⟩
  · exact hall ((mapped_load hmem).mp hmapped)
  · rw [load_eq hmem] at hresult
    exact absurd hresult (by decide)

end ElfLoader

end ComputeKernel.Memory
