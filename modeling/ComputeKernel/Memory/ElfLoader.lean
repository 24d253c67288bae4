import ComputeKernel.Memory.Virtual

/-!
# ELF loader

Loading maps one VMA for each segment and one for the stack, and does not look at
whether a mapping succeeds.
-/

namespace ComputeKernel.Memory

open Lib

structure ElfSegment where
  segType : Str
  vaddr : Int
  size : Int
  fileSize : Int
  flags : Str
  name : Str
  deriving DecidableEq, Repr

structure FakeElf where
  name : Str
  entryPoint : Int := 0x400000
  segments : List ElfSegment := []
  interpreter : Str := "/lib64/ld-linux-x86-64.so.2".toList
  arch : Str := "x86_64".toList
  deriving DecidableEq, Repr

def FakeElf.makeSimple (name : Str) (base : Int) : FakeElf where
  name := name
  entryPoint := base
  segments :=
    [⟨"PT_LOAD".toList, base, 0x1000, 0x1000, "r-x".toList, "text".toList⟩,
      ⟨"PT_LOAD".toList, base + 0x200000, 0x1000, 0x800, "rw-".toList, "data".toList⟩,
      ⟨"PT_LOAD".toList, base + 0x201000, 0x1000, 0, "rw-".toList, "bss".toList⟩]

namespace ElfLoader

def load (vmm : VirtualMemoryManager) (elf : FakeElf) (pid : Int) :
    Int × VirtualMemoryManager :=
  match vmm.addressSpaces.get? pid with
  | none => (-1, vmm)
  | some _ =>
      let vmm := elf.segments.foldl
        (fun vmm seg =>
          (vmm.mapPages pid seg.vaddr seg.size seg.flags ('[' :: seg.name ++ [']'])).2)
        vmm
      -- the stack is mapped whether or not there is one
      (elf.entryPoint,
        (vmm.mapPages pid 0x00007fff00000000 0x100000 "rw-".toList "[stack]".toList).2)

end ElfLoader

end ComputeKernel.Memory
