import ComputeKernel.Fs.TmpFS
import ComputeKernel.Memory.Virtual
import ComputeKernel.Tasks.Process
import ComputeKernel.Vfs.VFS

/-!
# System calls

The state that system calls work on, the fourteen handlers, and the dispatcher
with the numbers, the argument types and the defaults of the handlers.
-/

namespace ComputeKernel.Kernel

open Lib Fs Memory Tasks Vfs

def EPERM : Int := 1
def ENOENT : Int := 2
def ESRCH : Int := 3
def EBADF : Int := 9
def ENOMEM : Int := 12
def EINVAL : Int := 22
def ENOSYS : Int := 38

def errorCodes : List Int :=
  [-EPERM, -ENOENT, -ESRCH, -EBADF, -ENOMEM, -EINVAL, -ENOSYS]

def signals : List Int := [1, 15, 9, 17, 10, 12, 11, 2, 19]

def initialBrk : Int := 0x601000

/-- The address that `mmap` maps at; 0 asks for none in particular. -/
def mmapAddr (addr : Int) : Int :=
  if addr = 0 then 0x7f0000000000 else addr

/-- The tables shared by all processes; `brk` belongs to the dispatcher. -/
structure KernelState where
  processTable : ProcessTable
  vfs : VFS Unit TmpFS
  vmm : VirtualMemoryManager
  brk : Dict Int Int

inductive Arg
  | int (value : Int)
  | str (value : Str)
  | bytes (value : Bytes)
  | list (value : List Str)
  deriving DecidableEq

inductive Syscall
  | read (fd size : Int)
  | write (fd : Int) (data : Bytes)
  | openat (dirfd : Int) (path flags : Str)
  | close (fd : Int)
  | mmap (addr length : Int) (flags name : Str)
  | munmap (addr length : Int)
  | brk (newBrk : Int)
  | nanosleep (seconds nanos : Int)
  | getpid
  | fork
  | execve (path : Str) (argv envp : Option (List Str))
  | exit (code : Int)
  | wait4 (childPid options : Int)
  | kill (targetPid signum : Int)
  | unknown
  deriving DecidableEq

/-! ## Decoding -/

/-- The argument at a position, or its default.  There is no result when the argument
has another type, or when it is missing and required. -/
def argument {α : Type} (ofArg : Arg → Option α) (args : List Arg) (i : Nat)
    (default : Option α) : Option α :=
  match args[i]? with
  | none => default
  | some arg => ofArg arg

def Arg.int? : Arg → Option Int
  | .int value => some value
  | _ => none

def Arg.str? : Arg → Option Str
  | .str value => some value
  | _ => none

def Arg.bytes? : Arg → Option Bytes
  | .bytes value => some value
  | _ => none

def Arg.list? : Arg → Option (Option (List Str))
  | .list value => some (some value)
  | _ => none

def intArg := argument Arg.int?
def strArg := argument Arg.str?
def bytesArg := argument Arg.bytes?
def listArg := argument Arg.list?

/-- The call made by a number and arguments of the declared types.  Arguments beyond
those of the handler are dropped. -/
def decode (nr : Int) (args : List Arg) : Option Syscall :=
  match nr with
  | 0 => do
      let fd ← intArg args 0 none
      let size ← intArg args 1 (some 4096)
      return .read fd size
  | 1 => do
      let fd ← intArg args 0 none
      let data ← bytesArg args 1 (some [])
      return .write fd data
  | 2 => do
      let dirfd ← intArg args 0 (some (-100))
      let path ← strArg args 1 (some [])
      let flags ← strArg args 2 (some "r".toList)
      return .openat dirfd path flags
  | 3 => do
      let fd ← intArg args 0 none
      return .close fd
  | 9 => do
      let addr ← intArg args 0 (some 0)
      let length ← intArg args 1 (some 4096)
      let flags ← strArg args 2 (some "rw-".toList)
      let name ← strArg args 3 (some "[mmap]".toList)
      return .mmap addr length flags name
  | 11 => do
      let addr ← intArg args 0 (some 0)
      let length ← intArg args 1 (some 0)
      return .munmap addr length
  | 12 => do
      let newBrk ← intArg args 0 (some 0)
      return .brk newBrk
  | 35 => do
      let seconds ← intArg args 0 (some 0)
      let nanos ← intArg args 1 (some 0)
      return .nanosleep seconds nanos
  | 39 => return .getpid
  | 57 => return .fork
  | 59 => do
      let path ← strArg args 0 (some [])
      let argv ← listArg args 1 (some none)
      let envp ← listArg args 2 (some none)
      return .execve path argv envp
  | 60 => do
      let code ← intArg args 0 (some 0)
      return .exit code
  | 61 => do
      let childPid ← intArg args 0 (some (-1))
      let options ← intArg args 1 (some 0)
      return .wait4 childPid options
  | 62 => do
      let targetPid ← intArg args 0 (some 0)
      let signum ← intArg args 1 (some 15)
      return .kill targetPid signum
  | _ => return .unknown

/-! ## Handlers -/

namespace KernelState

def sysRead (k : KernelState) (pid fd size : Int) : Int × KernelState :=
  match k.processTable.get pid with
  | none => (-EINVAL, k)
  | some proc =>
      match proc.fdt.get fd with
      | none => (-EBADF, k)
      | some _ =>
          let (data, vfs) := k.vfs.read fd size
          (data.length, { k with vfs := vfs })

/-- Output to the descriptors 1 and 2 goes to the log. -/
def sysWrite (k : KernelState) (pid fd : Int) (data : Bytes) : Int × KernelState :=
  match k.processTable.get pid with
  | none => (-EINVAL, k)
  | some proc =>
      if fd = 1 ∨ fd = 2 then (data.length, k)
      else
        match proc.fdt.get fd with
        | none => (-EBADF, k)
        | some _ =>
            let (n, vfs) := k.vfs.write fd data
            (n, { k with vfs := vfs })

def sysOpenat (k : KernelState) (pid _dirfd : Int) (path flags : Str) :
    Except FsError Int × KernelState :=
  match k.processTable.get pid with
  | none => (.ok (-EINVAL), k)
  | some _ =>
      if path = [] then (.ok (-EINVAL), k)
      else
        match k.vfs.open_ path flags with
        | (.error error, vfs) => (.error error, { k with vfs := vfs })
        | (.ok fd, vfs) =>
            if fd < 0 then (.ok fd, { k with vfs := vfs })
            else
              (.ok fd,
                { k with
                  vfs := vfs
                  processTable := k.processTable.update pid fun proc =>
                    proc.setFd fd path flags })

def sysClose (k : KernelState) (pid fd : Int) : Int × KernelState :=
  match k.processTable.get pid with
  | none => (-EINVAL, k)
  | some proc =>
      match proc.fdt.close fd with
      | (false, _) => (-EBADF, k)
      | (true, fdt) =>
          (0,
            { k with
              vfs := (k.vfs.close fd).2
              processTable := k.processTable.update pid fun proc => proc.setFdt fdt })

def sysMmap (k : KernelState) (pid addr length : Int) (flags name : Str) :
    Int × KernelState :=
  if length ≤ 0 then (-EINVAL, k)
  else
    match k.processTable.get pid with
    | none => (-EINVAL, k)
    | some _ =>
        let addr := mmapAddr addr
        match k.vmm.mapPages pid addr length flags name with
        | (false, vmm) => (-ENOMEM, { k with vmm := vmm })
        | (true, vmm) => (addr, { k with vmm := vmm })

def sysMunmap (k : KernelState) (pid addr _length : Int) : Int × KernelState :=
  if addr = 0 then (-EINVAL, k)
  else
    let (ok, vmm) := k.vmm.unmapPages pid addr
    (if ok then 0 else -EINVAL, { k with vmm := vmm })

def currentBrk (k : KernelState) (pid : Int) : Int :=
  (k.brk.get? pid).getD initialBrk

/-- The break moves whether or not the pages could be mapped. -/
def sysBrk (k : KernelState) (pid newBrk : Int) : Int × KernelState :=
  let current := k.currentBrk pid
  if newBrk = 0 ∨ newBrk ≤ current then (current, k)
  else
    let size := newBrk - current
    (newBrk,
      { k with
        vmm := (k.vmm.mapPages pid current size "rw-".toList "[heap]".toList).2
        brk := k.brk.set pid newBrk })

def sysNanosleep (_seconds _nanos : Int) : Int := 0

def sysGetpid (pid : Int) : Int := pid

def sysFork (k : KernelState) (pid : Int) : Int × KernelState :=
  match k.processTable.get pid with
  | none => (-EINVAL, k)
  | some parent =>
      let (child, processTable) := k.processTable.spawn parent.name pid parent.creds.uid
        parent.creds.gid parent.cmdline
      (child.pid,
        { k with
          processTable := processTable.update child.pid fun child => child.setCwd parent.cwd
          vmm := k.vmm.createAddressSpace child.pid })

def sysExecve (k : KernelState) (pid : Int) (path : Str) (_argv _envp : Option (List Str)) :
    Int × KernelState :=
  match k.processTable.get pid with
  | none => (-EINVAL, k)
  | some _ =>
      (0, { k with
            processTable := k.processTable.update pid fun proc => proc.execute path })

def sysExit (k : KernelState) (pid code : Int) : Int × KernelState :=
  match k.processTable.get pid with
  | none => (-EINVAL, k)
  | some _ =>
      (0, { k with processTable := k.processTable.update pid fun proc => proc.terminate code })

/-- The first child in the list that is there and a zombie is reaped, whichever child
the caller named. -/
def sysWait4 (k : KernelState) (pid _childPid _options : Int) : Int × KernelState :=
  match k.processTable.get pid with
  | none => (-EINVAL, k)
  | some parent =>
      match parent.children.find? k.processTable.isZombie with
      | none => (0, k)
      | some child => (child, { k with processTable := k.processTable.remove child })

def sysKill (k : KernelState) (_pid targetPid signum : Int) : Int :=
  match k.processTable.get targetPid with
  | none => -ESRCH
  | some _ => if signum ∈ signals then 0 else -EINVAL

/-! ## Dispatch -/

def perform (k : KernelState) (pid : Int) : Syscall → Except FsError Int × KernelState
  | .read fd size => returned (k.sysRead pid fd size)
  | .write fd data => returned (k.sysWrite pid fd data)
  | .openat dirfd path flags => k.sysOpenat pid dirfd path flags
  | .close fd => returned (k.sysClose pid fd)
  | .mmap addr length flags name => returned (k.sysMmap pid addr length flags name)
  | .munmap addr length => returned (k.sysMunmap pid addr length)
  | .brk newBrk => returned (k.sysBrk pid newBrk)
  | .nanosleep seconds nanos => returned (sysNanosleep seconds nanos, k)
  | .getpid => returned (sysGetpid pid, k)
  | .fork => returned (k.sysFork pid)
  | .execve path argv envp => returned (k.sysExecve pid path argv envp)
  | .exit code => returned (k.sysExit pid code)
  | .wait4 childPid options => returned (k.sysWait4 pid childPid options)
  | .kill targetPid signum => returned (k.sysKill pid targetPid signum, k)
  | .unknown => returned (-ENOSYS, k)
where
  returned (result : Int × KernelState) : Except FsError Int × KernelState :=
    (.ok result.1, result.2)

/-- Dispatch a call by number, defined for arguments of the declared types.  The log line, in
which not every integer can be written, is added below with the arguments of any type. -/
def dispatch (k : KernelState) (pid nr : Int) (args : List Arg) :
    Option (Except FsError Int × KernelState) :=
  (decode nr args).map (k.perform pid)

end KernelState

example : decode 9 [.int 0x1000] =
    some (.mmap 0x1000 4096 "rw-".toList "[mmap]".toList) := by
  decide

end ComputeKernel.Kernel
