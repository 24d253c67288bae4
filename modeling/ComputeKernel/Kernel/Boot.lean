import ComputeKernel.Kernel.Syscall
import ComputeKernel.Vfs.Creation

/-!
# The booted kernel

What the boot stages leave in the tables that system calls work on, and the
states that calls lead to from there.
-/

namespace ComputeKernel.Kernel

open Lib Fs Memory Tasks Vfs

def asciiBytes (text : String) : Bytes :=
  text.toList.map fun c => UInt8.ofNat c.toNat

def standardDirs : List Str :=
  ["dev".toList, "proc".toList, "sys".toList, "tmp".toList, "etc".toList, "bin".toList,
    "usr".toList, "var".toList, "home".toList]

def bootVfs : VFS Unit TmpFS :=
  let vfs := standardDirs.foldl (fun vfs dir => (vfs.mkdir ('/' :: dir)).2)
    (VFS.rootVfs "tmpfs".toList)
  let vfs := (vfs.createFile "/etc/version".toList
    (asciiBytes "ComputeKERNEL-Edu v0.1.0 (educational simulator)\n")).2
  (vfs.createFile "/etc/hostname".toList (asciiBytes "computekernel-edu\n")).2

/-- The memory stage makes the address space of the kernel, number 0; the last stage
spawns the init process. -/
def boot : KernelState :=
  let vmm := (VirtualMemoryManager.init (PhysicalMemoryManager.init defaultPhysPages))
    |>.createAddressSpace 0
  let (initProc, processTable) :=
    ProcessTable.init.spawn "init".toList 0 0 0 "/sbin/init".toList
  { processTable := processTable.update initProc.pid fun proc => proc.start
    vfs := bootVfs
    vmm := vmm.createAddressSpace initProc.pid
    brk := Dict.empty }

/-- The states that calls with arguments of the declared types lead to. -/
inductive Reachable : KernelState → Prop
  | boot : Reachable boot
  | dispatch {k k' : KernelState} {pid nr : Int} {args : List Arg}
      {result : Except FsError Int} (hk : Reachable k)
      (hcall : k.dispatch pid nr args = some (result, k')) : Reachable k'

end ComputeKernel.Kernel
