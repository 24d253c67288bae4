import ComputeKernel.Lib.Bump
import ComputeKernel.Memory.Frames

/-!
# Packed frames

As long as no frame is given back, the first free frames are the ones behind all frames in use.
First-fit allocation then hands the pool out from the front.
-/

namespace ComputeKernel.Memory

open Lib

def Page.owner (page : Page) : Option Int :=
  if page.inUse then some page.ownerPid else none

namespace PhysicalMemoryManager

def owners (m : PhysicalMemoryManager) : List (Option Int) :=
  m.pages.map Page.owner

theorem owners_init (totalPages : Nat) :
    (init totalPages).owners = Bump.cells totalPages [] := by
  rw [Bump.cells_nil, owners, init, List.map_map, List.eq_replicate_iff]
  refine ⟨by simp, ?_⟩
  intro owner howner
  obtain ⟨i, -, rfl⟩ := List.mem_map.mp howner
  rfl

theorem owner_eq_none {page : Page} : page.owner = none ↔ page.inUse = false := by
  unfold Page.owner
  cases page.inUse with
  | false => simp
  | true => simp

theorem freePages_eq_count (m : PhysicalMemoryManager) : m.freePages = m.owners.count none := by
  rw [freePages, owners, List.count, List.countP_map]
  apply List.countP_congr
  intro page _
  cases huse : page.inUse with
  | false => simp [owner_eq_none.mpr huse]
  | true =>
      have hsome : page.owner ≠ none := by
        rw [Ne, owner_eq_none, huse]
        decide
      simp [hsome]

theorem owners_assign (m : PhysicalMemoryManager) (pfns : List Int) (pid : Int) :
    (m.assign pfns true pid (by simp)).owners =
      m.pages.map fun page => if page.pfn ∈ pfns then some pid else page.owner := by
  rw [owners, assign, List.map_map]
  refine List.map_congr_left fun page _ => ?_
  dsimp only [Function.comp_apply]
  split
  · rfl
  · rfl

theorem owners_assign_front {m : PhysicalMemoryManager} {taken : List (Option Int)} {free n : Nat}
    (htaken : none ∉ taken) (howners : m.owners = taken ++ List.replicate free none) (hn : n ≤ free)
    (pid : Int) :
    (m.assign (m.freeFrames.take n) true pid (by simp)).owners =
      taken ++ List.replicate n (some pid) ++ List.replicate (free - n) none := by
  obtain ⟨used, rest, hpages, hused, hrest⟩ := List.map_eq_append_iff.mp howners
  have hinUse : ∀ page ∈ used, page.inUse = true := by
    intro page hpage
    have hmem : page.owner ∈ taken := hused ▸ List.mem_map.mpr ⟨page, hpage, rfl⟩
    by_contra hfree
    rw [Bool.not_eq_true, ← owner_eq_none] at hfree
    exact htaken (hfree ▸ hmem)
  have hunused : ∀ page ∈ rest, page.inUse = false := by
    intro page hpage
    have hmem : page.owner ∈ List.replicate free none :=
      hrest ▸ List.mem_map.mpr ⟨page, hpage, rfl⟩
    exact owner_eq_none.mp (List.eq_of_mem_replicate hmem)
  have hlength : rest.length = free := by
    rw [← List.length_map Page.owner, hrest, List.length_replicate]
  have hfreeFrames : m.freeFrames = rest.map Page.pfn := by
    rw [freeFrames, hpages, List.filter_append, List.filter_eq_nil_iff.mpr, List.nil_append,
      List.filter_eq_self.mpr]
    · intro page hpage
      simp [hunused page hpage]
    · intro page hpage
      simp [hinUse page hpage]
  have hnodup := m.pfn_nodup
  rw [hpages, List.map_append, List.nodup_append] at hnodup
  obtain ⟨-, hrestNodup, hdisjoint⟩ := hnodup
  have hsplit := List.take_append_drop n rest
  have hkeep : ∀ pages : List Page, (∀ page ∈ pages, page.pfn ∉ (rest.map Page.pfn).take n) →
      (pages.map fun page =>
        if page.pfn ∈ (rest.map Page.pfn).take n then some pid else page.owner) =
        pages.map Page.owner :=
    fun pages hpages => List.map_congr_left fun page hpage => if_neg (hpages page hpage)
  rw [owners_assign, hfreeFrames, hpages, List.map_append, hkeep used, hused, List.append_assoc]
  · congr 1
    conv_lhs => rw [← hsplit]
    rw [List.map_append]
    congr 1
    · rw [List.eq_replicate_iff]
      refine ⟨by simp [hlength, hn], ?_⟩
      intro owner howner
      obtain ⟨page, hpage, rfl⟩ := List.mem_map.mp howner
      rw [hsplit, if_pos]
      rw [← List.map_take]
      exact List.mem_map.mpr ⟨page, hpage, rfl⟩
    · rw [hsplit, hkeep, List.map_drop, hrest, List.drop_replicate]
      intro page hpage hmem
      rw [← hsplit, List.map_append, List.nodup_append] at hrestNodup
      rw [← List.map_take] at hmem
      exact hrestNodup.2.2 _ hmem _ (List.mem_map.mpr ⟨page, hpage, rfl⟩) rfl
  · intro page hpage hmem
    exact hdisjoint _ (List.mem_map.mpr ⟨page, hpage, rfl⟩) _ (List.mem_of_mem_take hmem) rfl

end PhysicalMemoryManager

namespace VirtualMemoryManager

open PhysicalMemoryManager

def framesFor (size : Int) : Nat :=
  (pagesNeeded size).toNat

theorem mapPages_packed {vmm : VirtualMemoryManager} {pid size : Int} {capacity : Nat}
    {log : List (Int × Nat)} (hmem : pid ∈ vmm.addressSpaces) (hsize : 0 < size)
    (hlog : Bump.used log ≤ capacity) (howners : vmm.pmm.owners = Bump.cells capacity log)
    (vaddr : Int) (flags name : Str) :
    (vmm.mapPages pid vaddr size flags name).1 =
        decide (Bump.used log + framesFor size ≤ capacity) ∧
      (vmm.mapPages pid vaddr size flags name).2.pmm.owners =
        Bump.cells capacity (Bump.request capacity log (pid, framesFor size)) := by
  have hfree : vmm.pmm.freePages = capacity - Bump.used log := by
    rw [freePages_eq_count, howners, Bump.count_none_cells]
  obtain ⟨space, hspace⟩ := Dict.mem_iff_exists.mp hmem
  unfold Bump.request
  by_cases hfits : Bump.used log + framesFor size ≤ capacity
  · have hle : (pagesNeeded size).toNat ≤ vmm.pmm.freePages := by
      unfold framesFor at hfits
      omega
    rw [mapPages_of_le hspace hsize hle, if_pos hfits]
    refine ⟨(decide_eq_true hfits).symm, ?_⟩
    rw [Bump.cells] at howners
    have htaken : none ∉ log.flatMap fun demand => List.replicate demand.2 (some demand.1) := by
      intro hnone
      obtain ⟨demand, -, hnone⟩ := List.mem_flatMap.mp hnone
      cases List.eq_of_mem_replicate hnone
    have hn : framesFor size ≤ capacity - Bump.used log := by omega
    have hafter := owners_assign_front htaken howners hn pid
    rw [Bump.cells, List.flatMap_append, List.flatMap_cons, List.flatMap_nil, List.append_nil,
      Bump.used_concat, Nat.sub_add_eq]
    exact hafter
  · have hlt : vmm.pmm.freePages < (pagesNeeded size).toNat := by
      unfold framesFor at hfits
      omega
    rw [mapPages_of_lt hlt, if_neg hfits]
    exact ⟨(decide_eq_false hfits).symm, howners⟩

end VirtualMemoryManager

end ComputeKernel.Memory
