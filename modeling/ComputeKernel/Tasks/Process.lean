import ComputeKernel.Base
import ComputeKernel.Lib.Dict

/-!
# Processes

Process descriptors, the PID allocator with its free list, and the process
table, which also maintains the children lists.
-/

namespace ComputeKernel.Tasks

open Lib

inductive TaskState
  | new
  | runnable
  | running
  | sleepInt
  | sleepUnint
  | zombie
  | dead
  deriving DecidableEq, Repr

structure Credentials where
  uid : Int := 0
  gid : Int := 0
  euid : Int := 0
  egid : Int := 0
  deriving DecidableEq, Repr

structure FileDescriptorTable where
  table : Dict Int (Str × Str) := Dict.empty
  nextFd : Int := 3
  deriving DecidableEq

namespace FileDescriptorTable

def alloc (fdt : FileDescriptorTable) (path : Str) (flags : Str := "r".toList) :
    Int × FileDescriptorTable :=
  let fd := fdt.nextFd
  (fd, { table := fdt.table.set fd (path, flags), nextFd := fdt.nextFd + 1 })

def get (fdt : FileDescriptorTable) (fd : Int) : Option (Str × Str) :=
  fdt.table.get? fd

def set (fdt : FileDescriptorTable) (fd : Int) (path flags : Str) : FileDescriptorTable :=
  { fdt with table := fdt.table.set fd (path, flags) }

def close (fdt : FileDescriptorTable) (fd : Int) : Bool × FileDescriptorTable :=
  if fd ∈ fdt.table then (true, { fdt with table := fdt.table.erase fd }) else (false, fdt)

theorem close_of_mem {fdt : FileDescriptorTable} {fd : Int} (h : fd ∈ fdt.table) :
    fdt.close fd = (true, { fdt with table := fdt.table.erase fd }) :=
  if_pos h

theorem close_of_not_mem {fdt : FileDescriptorTable} {fd : Int} (h : fd ∉ fdt.table) :
    fdt.close fd = (false, fdt) :=
  if_neg h

end FileDescriptorTable

structure Process where
  pid : Int
  ppid : Int
  name : Str
  state : TaskState := .new
  creds : Credentials := {}
  fdt : FileDescriptorTable := {}
  exitCode : Int := 0
  cwd : Str := "/".toList
  cmdline : Str := []
  children : List Int := []
  deriving DecidableEq

namespace Process

def addChild (proc : Process) (pid : Int) : Process :=
  { proc with children := proc.children ++ [pid] }

def removeChild (proc : Process) (pid : Int) : Process :=
  { proc with children := proc.children.erase pid }

def setFdt (proc : Process) (fdt : FileDescriptorTable) : Process :=
  { proc with fdt := fdt }

def setFd (proc : Process) (fd : Int) (path flags : Str) : Process :=
  proc.setFdt (proc.fdt.set fd path flags)

def setCwd (proc : Process) (cwd : Str) : Process :=
  { proc with cwd := cwd }

/-- The process takes the name of the program, unless the path is empty. -/
def execute (proc : Process) (path : Str) : Process :=
  { proc with
    name := if path = [] then proc.name else (path.splitOn '/').getLastD []
    cmdline := path }

def start (proc : Process) : Process :=
  { proc with state := .runnable, cwd := "/".toList }

def terminate (proc : Process) (code : Int) : Process :=
  { proc with state := .zombie, exitCode := code }

end Process

structure PidAllocator where
  nextPid : Int
  freePids : List Int
  deriving DecidableEq, Repr

namespace PidAllocator

def init : PidAllocator := ⟨2, []⟩

def alloc (alloc : PidAllocator) : Int × PidAllocator :=
  match alloc.freePids with
  | pid :: rest => (pid, { alloc with freePids := rest })
  | [] => (alloc.nextPid, { alloc with nextPid := alloc.nextPid + 1 })

def free (alloc : PidAllocator) (pid : Int) : PidAllocator :=
  if pid > 1 then { alloc with freePids := alloc.freePids ++ [pid] } else alloc

end PidAllocator

structure ProcessTable where
  table : Dict Int Process
  pidAlloc : PidAllocator
  deriving DecidableEq

namespace ProcessTable

def init : ProcessTable where
  table := Dict.empty.set 0 { pid := 0, ppid := 0, name := "swapper/0".toList, state := .runnable }
  pidAlloc := PidAllocator.init

def get (pt : ProcessTable) (pid : Int) : Option Process :=
  pt.table.get? pid

def isZombie (pt : ProcessTable) (pid : Int) : Bool :=
  match pt.get pid with
  | none => false
  | some proc => proc.state = .zombie

def spawn (pt : ProcessTable) (name : Str) (ppid uid gid : Int) (cmdline : Str) :
    Process × ProcessTable :=
  let (pid, pidAlloc) := pt.pidAlloc.alloc
  let proc : Process :=
    { pid := pid
      ppid := ppid
      name := name
      creds := { uid := uid, gid := gid, euid := uid, egid := gid }
      cmdline := cmdline }
  let table := (pt.table.set pid proc).modify ppid fun parent => parent.addChild pid
  (proc, { table := table, pidAlloc := pidAlloc })

/-- Remove a process, give its PID back, and strike it off its parent's list. -/
def remove (pt : ProcessTable) (pid : Int) : ProcessTable :=
  match pt.table.get? pid with
  | none => pt
  | some proc =>
      { table := (pt.table.erase pid).modify proc.ppid fun parent => parent.removeChild pid
        pidAlloc := pt.pidAlloc.free pid }

def update (pt : ProcessTable) (pid : Int) (f : Process → Process) : ProcessTable :=
  { pt with table := pt.table.modify pid f }

end ProcessTable

end ComputeKernel.Tasks
