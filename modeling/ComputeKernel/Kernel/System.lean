import ComputeKernel.Kernel.Draining
import ComputeKernel.Memory.Packing
import ComputeKernel.Vfs.Refinement

/-!
# What the kernel is for

The kernel as its processes see it: a store of files with an owner for each open descriptor,
families of processes, and memory as a number of free frames, the addresses at which something
is mapped and a break for each process number.  There are no inodes, pages, descriptor tables,
names or credentials in it.
-/

namespace ComputeKernel.Vfs

def FileReply.size : FileReply → Int
  | .count n => n
  | .data (some bytes) => bytes.length
  | _ => 0

end ComputeKernel.Vfs

namespace ComputeKernel.Kernel

open Lib Fs Memory Tasks Vfs VirtualMemoryManager

structure System where
  files : FileStore
  owner : Int → Option Int
  phase : Int → Phase
  children : Int → List Int
  pids : PidAllocator
  starts : Int → Option (Int → Prop)
  free : Nat
  brk : Int → Int

namespace System

/-! ## Files -/

def read (s : System) (pid fd size : Int) : Int × System :=
  if s.phase pid = .absent then (-EINVAL, s)
  else if s.owner fd = some pid then
    let (reply, files) := s.files.read fd size
    (reply.size, { s with files := files })
  else (-EBADF, s)

def write (s : System) (pid fd : Int) (data : Bytes) : Int × System :=
  if s.phase pid = .absent then (-EINVAL, s)
  else if fd = 1 ∨ fd = 2 then (data.length, s)
  else if s.owner fd = some pid then
    let (reply, files) := s.files.write fd data
    (reply.size, { s with files := files })
  else (-EBADF, s)

noncomputable def openat (s : System) (pid : Int) (path flags : Str) : Int × System :=
  if s.phase pid = .absent ∨ path = [] then (-EINVAL, s)
  else
    let (reply, files) := s.files.open_ path flags
    if reply.size < 0 then (reply.size, { s with files := files })
    else
      (reply.size,
        { s with files := files, owner := Function.update s.owner reply.size (some pid) })

def close (s : System) (pid fd : Int) : Int × System :=
  if s.phase pid = .absent then (-EINVAL, s)
  else if s.owner fd = some pid then
    (0, { s with files := (s.files.close fd).2, owner := Function.update s.owner fd none })
  else (-EBADF, s)

/-! ## Memory -/

/-- Something is mapped from the address on. -/
def Starts (s : System) (pid addr : Int) : Prop :=
  ∃ starts, s.starts pid = some starts ∧ starts addr

def enter (s : System) (pid addr : Int) (frames : Nat) : System :=
  { s with
    free := s.free - frames
    starts := Function.update s.starts pid
      ((s.starts pid).map fun starts other => starts other ∨ other = addr) }

def mmap (s : System) (pid addr length : Int) : Int × System :=
  if length ≤ 0 ∨ s.phase pid = .absent then (-EINVAL, s)
  else if framesFor length ≤ s.free then
    (mmapAddr addr, s.enter pid (mmapAddr addr) (framesFor length))
  else (-ENOMEM, s)

open Classical in
/-- Unmapping gives no frame back. -/
noncomputable def munmap (s : System) (pid addr : Int) : Int × System :=
  if addr ≠ 0 ∧ s.Starts pid addr then
    (0,
      { s with
        starts := Function.update s.starts pid
          ((s.starts pid).map fun starts other => starts other ∧ other ≠ addr) })
  else (-EINVAL, s)

/-- The break moves up, with the heap if this can be mapped. -/
def setBrk (s : System) (pid newBrk : Int) : Int × System :=
  let current := s.brk pid
  if newBrk ≤ current then (current, s)
  else
    let frames := framesFor (newBrk - current)
    let grown :=
      if (s.starts pid).isSome ∧ frames ≤ s.free then s.enter pid current frames else s
    (newBrk, { grown with brk := Function.update s.brk pid newBrk })

/-! ## Processes -/

def fork (s : System) (pid : Int) : Int × System :=
  if s.phase pid = .absent then (-EINVAL, s)
  else
    let (child, pids) := s.pids.alloc
    (child,
      { s with
        phase := Function.update s.phase child (.live pid)
        children := Function.update s.children pid (s.children pid ++ [child])
        pids := pids
        starts := Function.update s.starts child
          (some fun addr => addr ∈ ([0x400000, 0x600000, 0x00007fff00000000] : List Int)) })

def exit (s : System) (pid : Int) : Int × System :=
  match s.phase pid with
  | .absent => (-EINVAL, s)
  | .live parent => (0, { s with phase := Function.update s.phase pid (.zombie parent) })
  | .zombie _ => (0, s)

def zombieChild (s : System) (pid : Int) : Option Int :=
  (s.children pid).find? fun child => Phase.isZombie (s.phase child)

/-- A process that is gone owns nothing and has no children. -/
def reap (s : System) (pid child : Int) : System :=
  { s with
    phase := Function.update s.phase child .absent
    children := Function.update
      (Function.update s.children pid ((s.children pid).erase child)) child []
    owner := fun fd => if s.owner fd = some child then none else s.owner fd
    pids := s.pids.free child }

theorem owner_reap_iff {s : System} {pid child other fd : Int} :
    (s.reap pid child).owner fd = some other ↔ other ≠ child ∧ s.owner fd = some other := by
  change (if s.owner fd = some child then none else s.owner fd) = some other ↔ _
  by_cases howner : s.owner fd = some child
  · rw [if_pos howner, howner]
    refine iff_of_false (Option.some_ne_none other).symm ?_
    rintro ⟨hne, hsame⟩
    exact hne (Option.some.inj hsame).symm
  · rw [if_neg howner]
    refine ⟨fun hother => ⟨?_, hother⟩, fun hother => hother.2⟩
    rintro rfl
    exact howner hother

def wait4 (s : System) (pid : Int) : Int × System :=
  if s.phase pid = .absent then (-EINVAL, s)
  else
    match s.zombieChild pid with
    | none => (0, s)
    | some child => (child, s.reap pid child)

def execve (s : System) (pid : Int) : Int :=
  if s.phase pid = .absent then -EINVAL else 0

def kill (s : System) (targetPid signum : Int) : Int :=
  if s.phase targetPid = .absent then -ESRCH else if signum ∈ signals then 0 else -EINVAL

noncomputable def serve (s : System) (req : Request) : Int × System :=
  match req.call with
  | .read fd size => s.read req.pid fd size
  | .write fd data => s.write req.pid fd data
  | .openat _ path flags => s.openat req.pid path flags
  | .close fd => s.close req.pid fd
  | .mmap addr length _ _ => s.mmap req.pid addr length
  | .munmap addr _ => s.munmap req.pid addr
  | .brk newBrk => s.setBrk req.pid newBrk
  | .nanosleep _ _ => (0, s)
  | .getpid => (req.pid, s)
  | .fork => s.fork req.pid
  | .execve _ _ _ => (s.execve req.pid, s)
  | .exit _ => s.exit req.pid
  | .wait4 _ _ => s.wait4 req.pid
  | .kill targetPid signum => (s.kill targetPid signum, s)
  | .unknown => (-ENOSYS, s)

/-- The answer as the dispatcher gives it; no call raises anything. -/
noncomputable def respond (s : System) (req : Request) : Except FsError Int × System :=
  (.ok (s.serve req).1, (s.serve req).2)

def bootRequests : List FileRequest :=
  (standardDirs.map fun dir => .mkdir ('/' :: dir)) ++
    [.createFile "/etc/version".toList
        (asciiBytes "ComputeKERNEL-Edu v0.1.0 (educational simulator)\n"),
      .createFile "/etc/hostname".toList (asciiBytes "computekernel-edu\n")]

/-- The idle process 0, with the init process 2 as its child. -/
noncomputable def boot : System where
  files := Service.after FileStore.serve FileStore.init bootRequests
  owner _ := none
  phase pid := if pid = 0 ∨ pid = 2 then .live 0 else .absent
  children pid := if pid = 0 then [2] else []
  pids := ⟨3, []⟩
  starts pid :=
    if pid = 0 ∨ pid = 2 then
      some fun addr => addr ∈ ([0x400000, 0x600000, 0x00007fff00000000] : List Int)
    else none
  free := defaultPhysPages
  brk _ := initialBrk

end System

end ComputeKernel.Kernel
