import ComputeKernel.Base
import ComputeKernel.Lib.Align
import ComputeKernel.Lib.Dict
import ComputeKernel.Lib.Run
import ComputeKernel.Memory.Physical

/-!
# Kernel allocator

Addresses are handed out in increasing order and never again; the table holds the blocks
that have not been freed.
-/

namespace ComputeKernel.Memory

open Lib Lib.Run

def hex (n : Int) : Str :=
  (if n < 0 then "-0x".toList else "0x".toList) ++ Nat.toDigits 16 n.natAbs

inductive KmallocError
  | valueError (message : Str)
  deriving DecidableEq, Repr

structure KmallocAllocator where
  /-- Sizes by address. -/
  allocations : Dict Int Int
  nextAddr : Int

structure KmallocUsage where
  allocations : Nat
  bytesAllocated : Int
  nextAddr : Str
  deriving DecidableEq, Repr

namespace KmallocAllocator

def init : KmallocAllocator where
  allocations := Dict.empty
  nextAddr := kernelBase + 0x1000000

def alloc (km : KmallocAllocator) (size : Int) : Except KmallocError Int × KmallocAllocator :=
  if size ≤ 0 then (.error (.valueError "kmalloc: invalid size".toList), km)
  else
    let addr := km.nextAddr
    (.ok addr,
      { allocations := km.allocations.set addr size
        nextAddr := addr + Int.land (size + 15) (Int.lnot 15) })

/-- An address that is not in the table is left alone. -/
def free (km : KmallocAllocator) (addr : Int) : KmallocAllocator :=
  if addr ∈ km.allocations then { km with allocations := km.allocations.erase addr } else km

def usage (km : KmallocAllocator) : KmallocUsage where
  allocations := km.allocations.entries.length
  bytesAllocated := km.allocations.values.sum
  nextAddr := hex km.nextAddr

theorem alloc_of_pos (km : KmallocAllocator) {size : Int} (h : 0 < size) :
    km.alloc size = (.ok km.nextAddr,
      { allocations := km.allocations.set km.nextAddr size
        nextAddr := km.nextAddr + Int.land (size + 15) (Int.lnot 15) }) :=
  if_neg (Int.not_le.mpr h)

theorem free_of_not_mem {km : KmallocAllocator} {addr : Int} (h : addr ∉ km.allocations) :
    km.free addr = km :=
  if_neg h

theorem aligned_size (size : Int) :
    size ≤ Int.land (size + 15) (Int.lnot 15) ∧ 16 ∣ Int.land (size + 15) (Int.lnot 15) :=
  round_up_bounds size 4

end KmallocAllocator

/-! ## The blocks of a run -/

structure Block where
  addr : Int
  size : Int
  deriving DecidableEq

def Block.Contains (block : Block) (a : Int) : Prop :=
  block.addr ≤ a ∧ a < block.addr + block.size

def Block.Disjoint (first second : Block) : Prop :=
  ∀ a, ¬ (first.Contains a ∧ second.Contains a)

/-- The allocator, all blocks it has returned, and those of them that are not freed. -/
structure Heap where
  km : KmallocAllocator
  returned : List Block
  live : List Block

namespace Heap

inductive Op
  | alloc (size : Int)
  | free (addr : Int)
  deriving DecidableEq

def start : Heap :=
  ⟨KmallocAllocator.init, [], []⟩

def step (h : Heap) : Op → Heap
  | .alloc size =>
      match h.km.alloc size with
      | (.error _, km) => { h with km := km }
      | (.ok addr, km) =>
          { km := km
            returned := h.returned ++ [⟨addr, size⟩]
            live := h.live ++ [⟨addr, size⟩] }
  | .free addr =>
      { h with
        km := h.km.free addr
        live := h.live.filter fun block => block.addr ≠ addr }

/-- Blocks end below the pointer, and the table lists those that are not freed. -/
structure Sound (h : Heap) : Prop where
  aligned : 16 ∣ h.km.nextAddr
  base_le : kernelBase + 0x1000000 ≤ h.km.nextAddr
  block : ∀ block ∈ h.returned, 16 ∣ block.addr ∧ kernelBase + 0x1000000 ≤ block.addr ∧
    0 < block.size ∧ block.addr + block.size ≤ h.km.nextAddr
  apart : h.returned.Pairwise fun first second =>
    first.addr + first.size ≤ second.addr
  live : h.live.Sublist h.returned
  table : h.km.allocations.entries = h.live.map fun block => (block.addr, block.size)

theorem sound_start : Sound start where
  aligned := by decide
  base_le := Int.le_refl _
  block := by simp [start]
  apart := List.Pairwise.nil
  live := List.Sublist.refl []
  table := rfl

theorem step_alloc_of_pos (h : Heap) {size : Int} (hsize : 0 < size) :
    h.step (.alloc size) =
      { km :=
          { allocations := h.km.allocations.set h.km.nextAddr size
            nextAddr := h.km.nextAddr + Int.land (size + 15) (Int.lnot 15) }
        returned := h.returned ++ [⟨h.km.nextAddr, size⟩]
        live := h.live ++ [⟨h.km.nextAddr, size⟩] } := by
  simp only [step, h.km.alloc_of_pos hsize]

theorem step_alloc_of_nonpos (h : Heap) {size : Int} (hsize : size ≤ 0) :
    h.step (.alloc size) = h := by
  have halloc : h.km.alloc size =
      (.error (.valueError "kmalloc: invalid size".toList), h.km) := if_pos hsize
  simp only [step, halloc]

namespace Sound

variable {h : Heap}

theorem mem_allocations (hs : Sound h) (addr : Int) :
    addr ∈ h.km.allocations ↔ ∃ block ∈ h.live, block.addr = addr := by
  rw [Dict.mem_iff_keys, Dict.keys, hs.table, List.map_map, List.mem_map]
  rfl

theorem alloc (hs : Sound h) {size : Int} (hsize : 0 < size) :
    Sound (h.step (.alloc size)) := by
  obtain ⟨hfits, hround⟩ := KmallocAllocator.aligned_size size
  have hfresh : h.km.nextAddr ∉ h.km.allocations := by
    intro hmem
    obtain ⟨block, hblock, haddr⟩ := (hs.mem_allocations _).mp hmem
    obtain ⟨-, -, hpos, hend⟩ := hs.block block (hs.live.mem hblock)
    omega
  rw [step_alloc_of_pos h hsize]
  constructor
  · exact Int.dvd_add hs.aligned hround
  · have := hs.base_le
    dsimp only
    omega
  · intro block hblock
    dsimp only at hblock ⊢
    rcases List.mem_append.mp hblock with hold | hnew
    · obtain ⟨haligned, hbase, hpos, hend⟩ := hs.block block hold
      exact ⟨haligned, hbase, hpos, by omega⟩
    · rw [List.mem_singleton.mp hnew]
      refine ⟨hs.aligned, hs.base_le, hsize, ?_⟩
      exact Int.add_le_add_left hfits _
  · apply List.pairwise_append.mpr
    refine ⟨hs.apart, List.pairwise_singleton _ _, ?_⟩
    intro first hfirst second hsecond
    rw [List.mem_singleton.mp hsecond]
    exact (hs.block first hfirst).2.2.2
  · exact hs.live.append (List.Sublist.refl _)
  · dsimp only
    rw [Dict.entries_set_of_not_mem hfresh, hs.table, List.map_append]
    rfl

theorem free (hs : Sound h) (addr : Int) : Sound (h.step (.free addr)) := by
  have hnext : (h.km.free addr).nextAddr = h.km.nextAddr := by
    unfold KmallocAllocator.free
    split
    · rfl
    · rfl
  have herase : (h.km.free addr).allocations = h.km.allocations.erase addr := by
    unfold KmallocAllocator.free
    split
    · rfl
    · rename_i hmem
      exact (Dict.erase_of_not_mem hmem).symm
  constructor
  · exact hnext ▸ hs.aligned
  · exact hnext ▸ hs.base_le
  · exact hnext ▸ hs.block
  · exact hs.apart
  · exact List.filter_sublist.trans hs.live
  · change (h.km.free addr).allocations.entries = _
    rw [herase]
    change h.km.allocations.entries.filter _ = _
    rw [hs.table, List.filter_map]
    rfl

end Sound

theorem sound_step (h : Heap) (op : Op) (hs : Sound h) : Sound (h.step op) := by
  cases op with
  | alloc size =>
      rcases Int.lt_or_le 0 size with hpos | hnonpos
      · exact hs.alloc hpos
      · rw [step_alloc_of_nonpos h hnonpos]
        exact hs
  | free addr => exact hs.free addr

/-- After any calls, every address that was returned is aligned and above the kernel base,
no two blocks ever returned overlap, the usage is that of the blocks not yet freed, and
freeing an address that is not one of theirs changes nothing. -/
theorem kmalloc_sound (ops : List Op) :
    let h := run step start ops
    (∀ block ∈ h.returned, 16 ∣ block.addr ∧ kernelBase + 0x1000000 ≤ block.addr) ∧
    h.returned.Pairwise Block.Disjoint ∧
    h.km.usage.allocations = h.live.length ∧
    h.km.usage.bytesAllocated = (h.live.map Block.size).sum ∧
    ∀ addr, (∀ block ∈ h.live, block.addr ≠ addr) → h.km.free addr = h.km := by
  intro h
  have hs : Sound h := run_invariant sound_step sound_start ops
  refine ⟨?_, ?_, ?_, ?_, ?_⟩
  · intro block hblock
    obtain ⟨haligned, hbase, -⟩ := hs.block block hblock
    exact ⟨haligned, hbase⟩
  · apply hs.apart.imp
    rintro first second hle a ⟨⟨-, hlt⟩, ⟨hlow, -⟩⟩
    omega
  · change h.km.allocations.entries.length = _
    rw [hs.table, List.length_map]
  · change h.km.allocations.values.sum = _
    rw [Dict.values, hs.table, List.map_map]
    rfl
  · intro addr haddr
    apply KmallocAllocator.free_of_not_mem
    intro hmem
    obtain ⟨block, hblock, heq⟩ := (hs.mem_allocations addr).mp hmem
    exact haddr block hblock heq

end Heap

end ComputeKernel.Memory
