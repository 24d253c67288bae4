import Mathlib.Data.List.Find
import ComputeKernel.Memory.ElfLoader
import ComputeKernel.Memory.Frames

/-!
# Layout of an address space

VMAs that share no address can be looked up in any order.  Mappings are made one after
the other as long as there are frames, at whatever address was asked for.
-/

namespace ComputeKernel.Memory

open Lib

namespace VirtualMemoryArea

@[simp] theorem size_mk (start size : Int) (flags name : Str) :
    VirtualMemoryArea.size ⟨start, start + size, flags, name⟩ = size := by
  change start + size - start = size
  omega

def Apart (left right : VirtualMemoryArea) : Prop :=
  ∀ addr, left.Contains addr → ¬ right.Contains addr

theorem apart_iff {left right : VirtualMemoryArea} :
    left.Apart right ↔ min left.end_ right.end_ ≤ max left.start right.start := by
  unfold Apart Contains
  constructor
  · intro h
    have := h (max left.start right.start)
    omega
  · intro h addr
    omega

instance (left right : VirtualMemoryArea) : Decidable (left.Apart right) :=
  decidable_of_iff _ apart_iff.symm

theorem Apart.symm {left right : VirtualMemoryArea} (h : left.Apart right) :
    right.Apart left :=
  fun addr hright hleft => h addr hleft hright

end VirtualMemoryArea

namespace AddressSpace

/-- No two VMAs overlap, and the order of the VMAs makes no difference to `lookup`. -/
structure LayoutOk (space : AddressSpace) : Prop where
  apart : space.areas.Pairwise VirtualMemoryArea.Apart
  order : ∀ other : AddressSpace, other.areas.Perm space.areas →
    ∀ addr, other.lookup addr = space.lookup addr

theorem subsingleton_contains {areas : List VirtualMemoryArea}
    (h : areas.Pairwise VirtualMemoryArea.Apart) (addr : Int) :
    {area ∈ areas | area.Contains addr}.Subsingleton := by
  have : Std.Symm VirtualMemoryArea.Apart := ⟨fun _ _ => VirtualMemoryArea.Apart.symm⟩
  rintro left ⟨hleft, hleftAddr⟩ right ⟨hright, hrightAddr⟩
  by_contra hne
  exact h.forall hleft hright hne addr hleftAddr hrightAddr

theorem layoutOk_iff {space : AddressSpace} :
    space.LayoutOk ↔ space.areas.Pairwise VirtualMemoryArea.Apart := by
  constructor
  · exact LayoutOk.apart
  · intro h
    refine ⟨h, ?_⟩
    intro other hperm addr
    symm
    apply List.find?_eq_find?_of_perm hperm.symm
    simpa using subsingleton_contains h addr

end AddressSpace

namespace VirtualMemoryManager

theorem layoutOk_newAddressSpace (pid : Int) : (newAddressSpace pid).LayoutOk := by
  have h : (newAddressSpace 0).areas.Pairwise VirtualMemoryArea.Apart := by decide
  exact AddressSpace.layoutOk_iff.mpr h

/-- Those of the VMAs, mapped in this order, that there are frames for. -/
def granted : Nat → List VirtualMemoryArea → List VirtualMemoryArea
  | _, [] => []
  | free, area :: areas =>
      if 0 < area.size ∧ (pagesNeeded area.size).toNat ≤ free then
        area :: granted (free - (pagesNeeded area.size).toNat) areas
      else granted free areas

def framesNeeded (areas : List VirtualMemoryArea) : Nat :=
  areas.foldr (fun area total => (pagesNeeded area.size).toNat + total) 0

theorem granted_eq_self {free : Nat} {areas : List VirtualMemoryArea}
    (hsize : ∀ area ∈ areas, 0 < area.size) (hfree : framesNeeded areas ≤ free) :
    granted free areas = areas := by
  induction areas generalizing free with
  | nil => rfl
  | cons area areas ih =>
      rw [framesNeeded, List.foldr_cons] at hfree
      have hfirst : (pagesNeeded area.size).toNat ≤ free := by omega
      have hpos := hsize area List.mem_cons_self
      rw [granted, if_pos ⟨hpos, hfirst⟩, ih]
      · exact fun area hmem => hsize area (List.mem_cons_of_mem _ hmem)
      · unfold framesNeeded
        omega

def mapAll (vmm : VirtualMemoryManager) (pid : Int) (areas : List VirtualMemoryArea) :
    VirtualMemoryManager :=
  areas.foldl
    (fun vmm area => (vmm.mapPages pid area.start area.size area.flags area.name).2) vmm

theorem mapAll_append (vmm : VirtualMemoryManager) (pid : Int)
    (first second : List VirtualMemoryArea) :
    vmm.mapAll pid (first ++ second) = (vmm.mapAll pid first).mapAll pid second :=
  List.foldl_append

theorem get?_mapAll {vmm : VirtualMemoryManager} {pid : Int} {space : AddressSpace}
    (hspace : vmm.addressSpaces.get? pid = some space) (areas : List VirtualMemoryArea) :
    (vmm.mapAll pid areas).addressSpaces.get? pid =
      some { space with areas := space.areas ++ granted vmm.pmm.freePages areas } := by
  induction areas generalizing vmm space with
  | nil =>
      rw [granted, List.append_nil]
      exact hspace
  | cons area areas ih =>
      change ((vmm.mapPages pid area.start area.size area.flags area.name).2.mapAll pid
        areas).addressSpaces.get? pid = _
      have hmem := Dict.mem_of_get? hspace
      by_cases hfits : vmm.Fits pid area.size
      · obtain ⟨old, pmm, hold, hmap, -, hfree⟩ :=
          mapPages_of_fits hfits area.start area.flags area.name
        rw [hspace] at hold
        cases hold
        have hend : area.start + area.size = area.end_ := by
          unfold VirtualMemoryArea.size
          omega
        have hleft : pmm.freePages =
            vmm.pmm.freePages - (pagesNeeded area.size).toNat := by omega
        rw [hmap, ih (Dict.get?_set_self _ _ _), granted, if_pos hfits.2, hleft]
        simp only [AddressSpace.map, hend, List.append_assoc, List.singleton_append]
      · have hsize : ¬ (0 < area.size ∧
            (pagesNeeded area.size).toNat ≤ vmm.pmm.freePages) :=
          fun hsize => hfits ⟨hmem, hsize⟩
        rw [mapPages_of_not_fits hfits, ih hspace, granted, if_neg hsize]

theorem get?_mapAll_of_ne (vmm : VirtualMemoryManager) {pid other : Int}
    (hother : other ≠ pid) (areas : List VirtualMemoryArea) :
    (vmm.mapAll pid areas).addressSpaces.get? other = vmm.addressSpaces.get? other := by
  induction areas generalizing vmm with
  | nil => rfl
  | cons area areas ih =>
      apply (ih _).trans
      exact (vmm.mapPages_frame hother _ _ _ _).1

end VirtualMemoryManager

namespace FakeElf

/-- The stack that loading asks for, which every new address space has already. -/
def stack : VirtualMemoryArea :=
  ⟨0x00007fff00000000, 0x00007fff00000000 + 0x100000, "rw-".toList, "[stack]".toList⟩

def areas (elf : FakeElf) : List VirtualMemoryArea :=
  elf.segments.map (fun seg =>
    ⟨seg.vaddr, seg.vaddr + seg.size, seg.flags, '[' :: seg.name ++ [']']⟩) ++ [stack]

end FakeElf

theorem ElfLoader.load_eq {vmm : VirtualMemoryManager} {pid : Int}
    (hmem : pid ∈ vmm.addressSpaces) (elf : FakeElf) :
    ElfLoader.load vmm elf pid = (elf.entryPoint, vmm.mapAll pid elf.areas) := by
  obtain ⟨space, hspace⟩ := Dict.mem_iff_exists.mp hmem
  unfold ElfLoader.load
  rw [hspace, FakeElf.areas, VirtualMemoryManager.mapAll_append]
  unfold VirtualMemoryManager.mapAll
  simp only [List.foldl_map, List.foldl_cons, List.foldl_nil, FakeElf.stack,
    VirtualMemoryArea.size_mk]

end ComputeKernel.Memory
