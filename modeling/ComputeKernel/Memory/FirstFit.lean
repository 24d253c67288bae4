import Mathlib.Data.List.Sort
import ComputeKernel.Memory.Frames

/-!
# First-fit allocation

A request takes the free frames with the lowest numbers, or none at all.
-/

namespace ComputeKernel.Memory

open Lib Lib.Run

namespace PhysicalMemoryManager

inductive Op
  | allocPage (pid : Int)
  | allocPages (n pid : Int)
  | freePage (pfn : Int)
  deriving DecidableEq

def step (m : PhysicalMemoryManager) : Op → PhysicalMemoryManager
  | .allocPage pid => ((m.allocPage pid).map Prod.snd).getD m
  | .allocPages n pid => (m.allocPages n pid).2
  | .freePage pfn => m.freePage pfn

/-- `pages` are the `n` lowest-numbered free frames of `m`, and `m'` is `m` with these
frames in use by `pid`. -/
structure TakesLowest (m : PhysicalMemoryManager) (n : Nat) (pid : Int) (pages : List Page)
    (m' : PhysicalMemoryManager) : Prop where
  length : pages.length = n
  ascending : (pages.map Page.pfn).Pairwise (· < ·)
  free : ∀ page ∈ pages, page.pfn ∈ m.freeFrames
  lowest : ∀ page ∈ pages, ∀ pfn ∈ m.freeFrames, pfn ∉ pages.map Page.pfn → page.pfn < pfn
  taken : ∀ page ∈ pages, page ∈ m'.pages ∧ page.inUse = true ∧ page.ownerPid = pid
  frames : m'.pages = m.pages.map fun frame =>
    if frame.pfn ∈ pages.map Page.pfn then { frame with inUse := true, ownerPid := pid }
    else frame

theorem freeFrames_ascending (m : PhysicalMemoryManager) :
    m.freeFrames.Pairwise (· < ·) := by
  have hall : (m.pages.map Page.pfn).Pairwise (· < ·) := by
    rw [m.numbered, List.pairwise_map]
    exact List.pairwise_lt_range.imp fun h => by omega
  exact hall.sublist (List.filter_sublist.map Page.pfn)

theorem lt_of_mem_take {pfns : List Int} (h : pfns.Pairwise (· < ·)) {n : Nat} {low pfn : Int}
    (hlow : low ∈ pfns.take n) (hpfn : pfn ∈ pfns) (hrest : pfn ∉ pfns.take n) : low < pfn := by
  rw [← List.take_append_drop n pfns] at h hpfn
  have hdrop : pfn ∈ pfns.drop n := (List.mem_append.mp hpfn).resolve_left hrest
  exact (List.pairwise_append.mp h).2.2 low hlow pfn hdrop

theorem allocPage_page {m m' : PhysicalMemoryManager} {pid : Int} {page : Page}
    (h : m.allocPage pid = some (page, m')) : page.inUse = true ∧ page.ownerPid = pid := by
  unfold allocPage at h
  split at h
  · cases h
  · cases h
    exact ⟨rfl, rfl⟩

theorem allocPagesLoop_pages (n : Nat) (m : PhysicalMemoryManager) (pid : Int)
    (result : List Page) (hresult : ∀ page ∈ result, page.inUse = true ∧ page.ownerPid = pid) :
    ∀ page ∈ (allocPagesLoop n m pid result).1, page.inUse = true ∧ page.ownerPid = pid := by
  induction n generalizing m result with
  | zero => exact hresult
  | succ n ih =>
      unfold allocPagesLoop
      cases halloc : m.allocPage pid with
      | none => simp
      | some taken =>
          rcases taken with ⟨page, m'⟩
          apply ih
          intro other hother
          rcases List.mem_append.mp hother with hold | hnew
          · exact hresult other hold
          · rw [List.mem_singleton.mp hnew]
            exact allocPage_page halloc

theorem mem_assign {m : PhysicalMemoryManager} {pfns : List Int} {pid : Int} {page : Page}
    (hmem : page.pfn ∈ pfns) (hpool : page.pfn ∈ m.freeFrames) (huse : page.inUse = true)
    (howner : page.ownerPid = pid) : page ∈ (m.assign pfns true pid (by simp)).pages := by
  obtain ⟨frame, hframe, hpfn⟩ := List.mem_map.mp hpool
  apply List.mem_map.mpr
  refine ⟨frame, (List.mem_filter.mp hframe).1, ?_⟩
  rw [if_pos (hpfn ▸ hmem), ← huse, ← howner, hpfn]

theorem takesLowest_of_le (m : PhysicalMemoryManager) {n : Int} (pid : Int)
    (h : n.toNat ≤ m.freePages) :
    m.TakesLowest n.toNat pid (m.allocPages n pid).1 (m.allocPages n pid).2 := by
  obtain ⟨pages, halloc, hpfns⟩ := m.allocPages_of_le pid h
  have hfields := allocPagesLoop_pages n.toNat m pid [] (by simp)
  change ∀ page ∈ (m.allocPages n pid).1, _ at hfields
  rw [halloc] at hfields ⊢
  have hmem : ∀ page ∈ pages, page.pfn ∈ m.freeFrames.take n.toNat := by
    intro page hpage
    rw [← hpfns]
    exact List.mem_map_of_mem hpage
  have hfree : ∀ page ∈ pages, page.pfn ∈ m.freeFrames :=
    fun page hpage => List.mem_of_mem_take (hmem page hpage)
  constructor
  · rw [← List.length_map (f := Page.pfn), hpfns, List.length_take, freeFrames_length]
    omega
  · rw [hpfns]
    exact m.freeFrames_ascending.sublist (List.take_sublist _ _)
  · exact hfree
  · intro page hpage pfn hpfn hrest
    rw [hpfns] at hrest
    exact lt_of_mem_take m.freeFrames_ascending (hmem page hpage) hpfn hrest
  · intro page hpage
    obtain ⟨huse, howner⟩ := hfields page hpage
    exact ⟨mem_assign (hmem page hpage) (hfree page hpage) huse howner, huse, howner⟩
  · rw [hpfns]
    rfl

def FirstFit (m : PhysicalMemoryManager) (n pid : Int) : Prop :=
  (n ≤ m.freePages ∧
    m.TakesLowest n.toNat pid (m.allocPages n pid).1 (m.allocPages n pid).2) ∨
  ((m.freePages : Int) < n ∧ m.allocPages n pid = ([], m))

theorem firstFit (m : PhysicalMemoryManager) (n pid : Int) (hn : 1 ≤ n) : m.FirstFit n pid := by
  by_cases h : n ≤ m.freePages
  · exact Or.inl ⟨h, m.takesLowest_of_le pid (by omega)⟩
  · exact Or.inr ⟨by omega, allocPages_of_lt m (by omega)⟩

end PhysicalMemoryManager

namespace VirtualMemoryManager

theorem pagesNeeded_bounds (size : Int) :
    pageSize * (pagesNeeded size - 1) < size ∧ size ≤ pageSize * pagesNeeded size := by
  unfold pagesNeeded pageSize
  omega

def MapsWhole (vmm : VirtualMemoryManager) (pid vaddr size : Int) (flags name : Str) : Prop :=
  vmm.mapPages pid vaddr size flags name = (false, vmm) ∨
  ∃ (frames : Nat) (pages : List Page) (space : AddressSpace) (vmm' : VirtualMemoryManager),
    vmm.mapPages pid vaddr size flags name = (true, vmm') ∧
    (pageSize * (frames - 1) < size ∧ size ≤ pageSize * frames) ∧
    vmm.pmm.TakesLowest frames pid pages vmm'.pmm ∧
    vmm.addressSpaces.get? pid = some space ∧
    vmm'.addressSpaces = vmm.addressSpaces.set pid
      { space with areas := space.areas ++ [⟨vaddr, vaddr + size, flags, name⟩] }

theorem mapsWhole (vmm : VirtualMemoryManager) (pid vaddr size : Int) (flags name : Str) :
    vmm.MapsWhole pid vaddr size flags name := by
  by_cases h : vmm.Fits pid size
  · obtain ⟨hmem, hsize, hframes⟩ := h
    obtain ⟨space, hspace⟩ := Dict.mem_iff_exists.mp hmem
    have hmap := mapPages_of_le hspace hsize hframes vaddr flags name
    have htakes := vmm.pmm.takesLowest_of_le pid hframes
    obtain ⟨pages, halloc, -⟩ := vmm.pmm.allocPages_of_le pid hframes
    rw [halloc] at htakes
    refine Or.inr ⟨(pagesNeeded size).toNat, pages, space, _, hmap, ?_, htakes, hspace, rfl⟩
    have hpos := pagesNeeded_pos hsize
    rw [Int.toNat_of_nonneg (Int.le_of_lt hpos)]
    exact pagesNeeded_bounds size
  · exact Or.inl (mapPages_of_not_fits h vaddr flags name)

end VirtualMemoryManager

/-- In every state that calls lead to, frames are taken first-fit and all or nothing, by
`allocPages` and by `mapPages` of any manager over it. -/
theorem allocation_atomic (totalPages : Nat) (ops : List PhysicalMemoryManager.Op) :
    (∀ n pid : Int, 1 ≤ n →
      (run PhysicalMemoryManager.step (.init totalPages) ops).FirstFit n pid) ∧
    ∀ (addressSpaces : Dict Int AddressSpace) (pid vaddr size : Int) (flags name : Str),
      VirtualMemoryManager.MapsWhole
        ⟨run PhysicalMemoryManager.step (.init totalPages) ops, addressSpaces⟩
        pid vaddr size flags name := by
  constructor
  · intro n pid hn
    exact PhysicalMemoryManager.firstFit _ n pid hn
  · intro addressSpaces pid vaddr size flags name
    exact VirtualMemoryManager.mapsWhole _ pid vaddr size flags name

theorem allocation_atomic_fragmented :
    let ops : List PhysicalMemoryManager.Op :=
      [.allocPages 3 1, .freePage 1, .freePage 1, .freePage 9]
    (1 : Int) ≤ 2 ∧ (run PhysicalMemoryManager.step (.init 4) ops).freeFrames = [1, 3] ∧
      (run PhysicalMemoryManager.step (.init 4) ops).FirstFit 2 7 := by
  intro ops
  exact ⟨by decide, by decide, (allocation_atomic 4 ops).1 2 7 (by decide)⟩

end ComputeKernel.Memory
