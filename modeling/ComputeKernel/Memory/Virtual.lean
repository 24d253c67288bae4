import ComputeKernel.Base
import ComputeKernel.Lib.Dict
import ComputeKernel.Memory.Physical

/-!
# Virtual memory manager

An address space is a list of VMAs in the order in which they were mapped, and
the manager keeps one address space for each process number.
-/

namespace ComputeKernel.Memory

open Lib

structure VirtualMemoryArea where
  start : Int
  end_ : Int
  flags : Str
  name : Str
  deriving DecidableEq, Repr

namespace VirtualMemoryArea

def size (area : VirtualMemoryArea) : Int :=
  area.end_ - area.start

def Contains (area : VirtualMemoryArea) (addr : Int) : Prop :=
  area.start ≤ addr ∧ addr < area.end_

instance (area : VirtualMemoryArea) (addr : Int) : Decidable (area.Contains addr) :=
  inferInstanceAs (Decidable (_ ∧ _))

end VirtualMemoryArea

structure AddressSpace where
  pid : Int
  areas : List VirtualMemoryArea
  deriving DecidableEq, Repr

namespace AddressSpace

def map (space : AddressSpace) (start size : Int) (flags name : Str) : AddressSpace :=
  { space with areas := space.areas ++ [⟨start, start + size, flags, name⟩] }

def unmap (space : AddressSpace) (start : Int) : Bool × AddressSpace :=
  let areas := space.areas.filter fun area => area.start ≠ start
  (decide (areas.length < space.areas.length), { space with areas := areas })

def lookup (space : AddressSpace) (addr : Int) : Option VirtualMemoryArea :=
  space.areas.find? fun area => area.Contains addr

def checkAccess (space : AddressSpace) (addr : Int) (write : Bool := false)
    (exec : Bool := false) : Bool :=
  match space.lookup addr with
  | none => false
  | some area =>
      let flags := area.flags
      if write ∧ 'w' ∉ flags then false
      else if exec ∧ 'x' ∉ flags then false
      else true

def Covered (space : AddressSpace) (addr : Int) : Prop :=
  ∃ area ∈ space.areas, area.Contains addr

/-- Flags of the VMA that an access to the address is checked against. -/
def flagsAt (space : AddressSpace) (addr : Int) : Option Str :=
  (space.lookup addr).map VirtualMemoryArea.flags

theorem unmap_of_false {space : AddressSpace} {start : Int}
    (h : (space.unmap start).1 = false) : (space.unmap start).2 = space := by
  have hlength : space.areas.length ≤
      (space.areas.filter fun area => area.start ≠ start).length :=
    Nat.le_of_not_lt (of_decide_eq_false h)
  have hself := List.filter_sublist.eq_of_length_le hlength
  simp only [unmap, hself]

end AddressSpace

def hex16 (n : Int) : Str :=
  let sign := if n < 0 then ['-'] else []
  let digits := Nat.toDigits 16 n.natAbs
  sign ++ List.replicate (16 - sign.length - digits.length) '0' ++ digits

structure VirtualMemoryManager where
  pmm : PhysicalMemoryManager
  addressSpaces : Dict Int AddressSpace

namespace VirtualMemoryManager

def init (pmm : PhysicalMemoryManager) : VirtualMemoryManager :=
  ⟨pmm, Dict.empty⟩

def newAddressSpace (pid : Int) : AddressSpace :=
  ((({ pid := pid, areas := [] } : AddressSpace).map
    0x400000 0x1000 "r-x".toList "[text]".toList).map
    0x600000 0x1000 "rw-".toList "[data]".toList).map
    0x00007fff00000000 0x100000 "rw-".toList "[stack]".toList

def createAddressSpace (vmm : VirtualMemoryManager) (pid : Int) : VirtualMemoryManager :=
  { vmm with addressSpaces := vmm.addressSpaces.set pid (newAddressSpace pid) }

def destroyAddressSpace (vmm : VirtualMemoryManager) (pid : Int) : VirtualMemoryManager :=
  { vmm with addressSpaces := vmm.addressSpaces.erase pid }

def pagesNeeded (size : Int) : Int :=
  (size + pageSize - 1) / pageSize

def mapPages (vmm : VirtualMemoryManager) (pid vaddr size : Int) (flags name : Str) :
    Bool × VirtualMemoryManager :=
  match vmm.addressSpaces.get? pid with
  | none => (false, vmm)
  | some space =>
      let (pages, pmm) := vmm.pmm.allocPages (pagesNeeded size) pid
      if pages = [] then (false, { vmm with pmm := pmm })
      else
        (true,
          { pmm := pmm
            addressSpaces :=
              vmm.addressSpaces.set pid (space.map vaddr size flags name) })

def unmapPages (vmm : VirtualMemoryManager) (pid vaddr : Int) :
    Bool × VirtualMemoryManager :=
  match vmm.addressSpaces.get? pid with
  | none => (false, vmm)
  | some space =>
      let (result, space) := space.unmap vaddr
      (result, { vmm with addressSpaces := vmm.addressSpaces.set pid space })

/-- What the fault handler says that it would do. -/
def simulatePageFault (vmm : VirtualMemoryManager) (pid addr : Int) (write : Bool := false) :
    Str :=
  match vmm.addressSpaces.get? pid with
  | none =>
      "#PF: pid=".toList ++ (toString pid).toList ++ " not found -> unhandled fault".toList
  | some space =>
      let fault := "#PF: pid=".toList ++ (toString pid).toList ++ " addr=0x".toList ++ hex16 addr
      match space.lookup addr with
      | none =>
          fault ++ (" -> no VMA found ".toList ++
            "-> would deliver SIGSEGV (segmentation fault)".toList)
      | some area =>
          if write ∧ 'w' ∉ area.flags then
            fault ++ " write to read-only VMA '".toList ++ area.name ++
              ("' ".toList ++ "-> protection fault -> SIGSEGV".toList)
          else
            fault ++ " in VMA '".toList ++ area.name ++ "' flags=".toList ++ area.flags ++
              (" ".toList ++ "-> demand page satisfied (simulated alloc)".toList)

theorem pagesNeeded_pos {size : Int} (h : 0 < size) : 0 < pagesNeeded size := by
  unfold pagesNeeded pageSize
  omega

theorem mapPages_of_lt {vmm : VirtualMemoryManager} {size : Int}
    (h : vmm.pmm.freePages < (pagesNeeded size).toNat) (pid vaddr : Int)
    (flags name : Str) : vmm.mapPages pid vaddr size flags name = (false, vmm) := by
  unfold mapPages
  cases vmm.addressSpaces.get? pid with
  | none => rfl
  | some space => simp [PhysicalMemoryManager.allocPages_of_lt vmm.pmm h]

theorem mapPages_of_le {vmm : VirtualMemoryManager} {pid size : Int}
    {space : AddressSpace} (hspace : vmm.addressSpaces.get? pid = some space)
    (hsize : 0 < size) (h : (pagesNeeded size).toNat ≤ vmm.pmm.freePages) (vaddr : Int)
    (flags name : Str) :
    vmm.mapPages pid vaddr size flags name =
      (true,
        { pmm := vmm.pmm.assign (vmm.pmm.freeFrames.take (pagesNeeded size).toNat)
            true pid (by simp)
          addressSpaces := vmm.addressSpaces.set pid (space.map vaddr size flags name) }) := by
  obtain ⟨pages, halloc, hpages⟩ := vmm.pmm.allocPages_of_le pid h
  have hpos : 0 < (pagesNeeded size).toNat := by
    have := pagesNeeded_pos hsize
    omega
  have hne : pages ≠ [] := by
    rintro rfl
    have hlength := congrArg List.length hpages
    rw [List.length_take, PhysicalMemoryManager.freeFrames_length, List.map_nil,
      List.length_nil] at hlength
    omega
  simp [mapPages, hspace, halloc, hne]

theorem pagesNeeded_le_of_mapPages {vmm : VirtualMemoryManager} {pid vaddr size : Int}
    {flags name : Str} (h : (vmm.mapPages pid vaddr size flags name).1 = true) :
    (pagesNeeded size).toNat ≤ vmm.pmm.freePages := by
  by_contra hlt
  rw [mapPages_of_lt (Nat.lt_of_not_le hlt)] at h
  cases h

theorem mapPages_frame (vmm : VirtualMemoryManager) {pid other : Int} (hother : other ≠ pid)
    (vaddr size : Int) (flags name : Str) :
    (vmm.mapPages pid vaddr size flags name).2.addressSpaces.get? other =
        vmm.addressSpaces.get? other ∧
      (vmm.mapPages pid vaddr size flags name).2.pmm.framesOf other =
        vmm.pmm.framesOf other := by
  have hframes := vmm.pmm.framesOf_allocPages (pagesNeeded size) hother
  unfold mapPages
  cases hspace : vmm.addressSpaces.get? pid with
  | none => exact ⟨rfl, rfl⟩
  | some space =>
      dsimp only
      split
      · exact ⟨rfl, hframes⟩
      · exact ⟨Dict.get?_set_of_ne _ _ hother, hframes⟩

theorem mem_mapPages (vmm : VirtualMemoryManager) (pid vaddr size : Int) (flags name : Str)
    (other : Int) :
    other ∈ (vmm.mapPages pid vaddr size flags name).2.addressSpaces ↔
      other ∈ vmm.addressSpaces := by
  unfold mapPages
  cases hspace : vmm.addressSpaces.get? pid with
  | none => rfl
  | some space =>
      dsimp only
      split
      · rfl
      · rw [Dict.mem_set, or_iff_right_of_imp]
        exact fun hother => hother ▸ Dict.mem_of_get? hspace

theorem mem_unmapPages (vmm : VirtualMemoryManager) (pid vaddr other : Int) :
    other ∈ (vmm.unmapPages pid vaddr).2.addressSpaces ↔ other ∈ vmm.addressSpaces := by
  unfold unmapPages
  cases hspace : vmm.addressSpaces.get? pid with
  | none => rfl
  | some space =>
      dsimp only
      rw [Dict.mem_set, or_iff_right_of_imp]
      exact fun hother => hother ▸ Dict.mem_of_get? hspace

theorem get?_mapPages_self {vmm : VirtualMemoryManager} {pid : Int} {space : AddressSpace}
    (hspace : vmm.addressSpaces.get? pid = some space) (vaddr size : Int) (flags name : Str) :
    (vmm.mapPages pid vaddr size flags name).2.addressSpaces.get? pid =
      some (if (vmm.mapPages pid vaddr size flags name).1 then space.map vaddr size flags name
        else space) := by
  unfold mapPages
  rw [hspace]
  dsimp only
  split
  · exact hspace
  · exact Dict.get?_set_self _ _ _

theorem get?_unmapPages_self {vmm : VirtualMemoryManager} {pid : Int} {space : AddressSpace}
    (hspace : vmm.addressSpaces.get? pid = some space) (vaddr : Int) :
    (vmm.unmapPages pid vaddr).2.addressSpaces.get? pid = some (space.unmap vaddr).2 := by
  unfold unmapPages
  rw [hspace]
  exact Dict.get?_set_self _ _ _

theorem mapPages_of_false {vmm : VirtualMemoryManager} {pid vaddr size : Int}
    {flags name : Str} (h : (vmm.mapPages pid vaddr size flags name).1 = false) :
    (vmm.mapPages pid vaddr size flags name).2 = vmm := by
  rcases Nat.lt_or_ge vmm.pmm.freePages (pagesNeeded size).toNat with hlt | hle
  · rw [mapPages_of_lt hlt]
  · obtain ⟨pages, halloc, hpages⟩ := vmm.pmm.allocPages_of_le pid hle
    unfold mapPages at h ⊢
    cases hspace : vmm.addressSpaces.get? pid with
    | none => rfl
    | some space =>
        simp only [hspace, halloc] at h ⊢
        split at h
        · -- no page was asked for, so none was taken
          rename_i hnil
          rw [hnil, List.map_nil] at hpages
          simp only [hnil, if_true, ← hpages, PhysicalMemoryManager.assign_nil]
        · cases h

theorem unmapPages_frame (vmm : VirtualMemoryManager) {pid other : Int}
    (hother : other ≠ pid) (vaddr : Int) :
    (vmm.unmapPages pid vaddr).2.addressSpaces.get? other =
        vmm.addressSpaces.get? other ∧
      (vmm.unmapPages pid vaddr).2.pmm = vmm.pmm := by
  unfold unmapPages
  cases vmm.addressSpaces.get? pid with
  | none => exact ⟨rfl, rfl⟩
  | some space => exact ⟨Dict.get?_set_of_ne _ _ hother, rfl⟩

theorem unmapPages_of_false {vmm : VirtualMemoryManager} {pid vaddr : Int}
    (h : (vmm.unmapPages pid vaddr).1 = false) : (vmm.unmapPages pid vaddr).2 = vmm := by
  unfold unmapPages at h ⊢
  cases hspace : vmm.addressSpaces.get? pid with
  | none => rfl
  | some space =>
      rw [hspace] at h
      dsimp only at h ⊢
      rw [AddressSpace.unmap_of_false h, Dict.set_eq_self hspace]

end VirtualMemoryManager

end ComputeKernel.Memory
