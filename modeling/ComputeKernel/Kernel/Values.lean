import Mathlib.Algebra.Ring.Int.Defs
import Mathlib.Algebra.Ring.Nat
import ComputeKernel.Kernel.Effect
import ComputeKernel.Memory.Frames

/-!
# Arguments of any type

The dispatcher logs its arguments, which fails for very long integers, and hands them to the
handlers as they are.  Here the handlers take integers and strings alike, and raise what an
operation raises that does not know the type.  With arguments of the declared types they are
the handlers above.
-/

namespace ComputeKernel.Kernel

open Lib Fs Memory Tasks Vfs

inductive Value
  | int (value : Int)
  | str (value : Str)
  deriving DecidableEq

namespace Value

def arg : Value → Arg
  | int value => .int value
  | str value => .str value

def text : Value → Str
  | int value => (toString value).toList
  | str value => value

def encode (value : Value) : Bytes :=
  (String.ofList value.text).toUTF8.toList

end Value

inductive PyError
  | typeError
  | attributeError
  | valueError
  | fsError (error : FsError)
  deriving DecidableEq

abbrev Outcome := Except PyError Int × KernelState

/-! ## The log line -/

/-- Longer integers are not converted to text. -/
def maxStrDigits : Nat := 4300

@[irreducible] def HasText (n : Int) : Prop :=
  n.natAbs < 10 ^ maxStrDigits

theorem hasText_iff {n : Int} : HasText n ↔ n.natAbs < 10 ^ maxStrDigits := by
  unfold HasText
  exact Iff.rfl

instance : DecidablePred HasText := fun _ => decidable_of_iff _ hasText_iff.symm

def Arg.HasText : Arg → Prop
  | .int n => Kernel.HasText n
  | _ => True

instance : DecidablePred Arg.HasText := fun arg =>
  match arg with
  | .int n => inferInstanceAs (Decidable (Kernel.HasText n))
  | .str _ | .bytes _ | .list _ => isTrue trivial

def syscallTable : List Int :=
  [0, 1, 2, 3, 9, 11, 12, 35, 39, 57, 59, 60, 61, 62]

/-- The dispatcher can write its log line, which has the arguments, those that the handler
does not take included, only when there is a handler. -/
def Loggable (pid nr : Int) (args : List Arg) : Prop :=
  HasText pid ∧ HasText nr ∧ (nr ∈ syscallTable → ∀ arg ∈ args, arg.HasText)

instance (pid nr : Int) (args : List Arg) : Decidable (Loggable pid nr args) :=
  inferInstanceAs (Decidable (_ ∧ _ ∧ (_ → _)))

def regularAt (vfs : VFS Unit TmpFS) (fd : Int) : Bool :=
  match vfs.openFiles.get? fd with
  | none => false
  | some file =>
      match (vfs.resolvePath file.path).1 with
      | none => false
      | some ref =>
          match (vfs.filesystems ref).lookup file.ino with
          | none => false
          | some inode => inode.itype = .file

namespace KernelState

def returns (k : KernelState) (r : Int) : Outcome :=
  (.ok r, k)

def raises (k : KernelState) (error : PyError) : Outcome :=
  (.error error, k)

def performs (k : KernelState) (pid : Int) (call : Syscall) : Outcome :=
  ((k.perform pid call).1.mapError .fsError, (k.perform pid call).2)

/-! ## Handlers -/

/-- No descriptor table has a string among its keys. -/
def badKey (k : KernelState) (pid : Int) : Outcome :=
  match k.processTable.get pid with
  | none => k.returns (-EINVAL)
  | some _ => k.returns (-EBADF)

/-- The size is added to the position only when the data of a regular file are read. -/
def readValues (k : KernelState) (pid : Int) : Value → Value → Outcome
  | .int fd, .int size => k.performs pid (.read fd size)
  | .int fd, .str _ =>
      match k.processTable.get pid with
      | none => k.returns (-EINVAL)
      | some proc =>
          match proc.fdt.get fd with
          | none => k.returns (-EBADF)
          | some _ => if regularAt k.vfs fd then k.raises .typeError else k.returns 0
  | .str _, _ => k.badKey pid

/-- An integer other than 0 has no length; to a file every value is written as text. -/
def writeValues (k : KernelState) (pid : Int) : Value → Option Value → Outcome
  | .int fd, none => k.performs pid (.write fd [])
  | .int fd, some data =>
      match k.processTable.get pid with
      | none => k.returns (-EINVAL)
      | some _ =>
          if fd = 1 ∨ fd = 2 then
            match data with
            | .str text => k.returns text.length
            | .int n => if n = 0 then k.returns 0 else k.raises .typeError
          else k.performs pid (.write fd data.encode)
  | .str _, _ => k.badKey pid

/-- An integer other than 0 passes the test for an empty path and is compared with the
mount points; flags are searched for letters when an inode was found.  `dirfd` is not
used. -/
def openatValues (k : KernelState) (pid : Int) : Value → Value → Outcome
  | .str path, .str flags => k.performs pid (.openat (-100) path flags)
  | .int path, _ =>
      match k.processTable.get pid with
      | none => k.returns (-EINVAL)
      | some _ =>
          if path = 0 then k.returns (-EINVAL)
          else if k.vfs.mounts = [] then k.returns (-ENOENT)
          else k.raises .attributeError
  | .str path, .int _ =>
      match k.processTable.get pid with
      | none => k.returns (-EINVAL)
      | some _ =>
          if path = [] then k.returns (-EINVAL)
          else
            match k.vfs.stat path with
            | none => k.returns (-ENOENT)
            | some _ => k.raises .typeError

def closeValues (k : KernelState) (pid : Int) : Value → Outcome
  | .int fd => k.performs pid (.close fd)
  | .str _ => k.badKey pid

/-- Frames are taken before the end of the VMA is computed from its start.  Flags and name
are stored, an integer as its text. -/
def mmapValues (k : KernelState) (pid : Int) : Value → Value → Value → Value → Outcome
  | .int addr, .int length, flags, name =>
      k.performs pid (.mmap addr length flags.text name.text)
  | .str _, .int length, _, _ =>
      if length ≤ 0 then k.returns (-EINVAL)
      else
        match k.processTable.get pid with
        | none => k.returns (-EINVAL)
        | some _ =>
            match k.vmm.addressSpaces.get? pid with
            | none => k.returns (-ENOMEM)
            | some _ =>
                let (pages, pmm) :=
                  k.vmm.pmm.allocPages (VirtualMemoryManager.pagesNeeded length) pid
                let k : KernelState := { k with vmm := { k.vmm with pmm := pmm } }
                if pages = [] then k.returns (-ENOMEM) else k.raises .typeError
  | _, .str _, _, _ => k.raises .typeError

/-- No VMA starts at a string.  The length is not used. -/
def munmapValues (k : KernelState) (pid : Int) : Value → Outcome
  | .int addr => k.performs pid (.munmap addr 0)
  | .str _ => k.returns (-EINVAL)

def brkValues (k : KernelState) (pid : Int) : Value → Outcome
  | .int newBrk => k.performs pid (.brk newBrk)
  | .str _ => k.raises .typeError

/-- The path 0 counts as empty.  `argv` and `envp` are not used. -/
def execveValues (k : KernelState) (pid : Int) : Value → Outcome
  | .str path => k.performs pid (.execve path none none)
  | .int path =>
      match k.processTable.get pid with
      | none => k.returns (-EINVAL)
      | some _ =>
          if path = 0 then k.performs pid (.execve [] none none) else k.raises .attributeError

/-- The exit code is stored, a string as 0. -/
def exitValues (k : KernelState) (pid : Int) : Value → Outcome
  | .int code => k.performs pid (.exit code)
  | .str _ => k.performs pid (.exit 0)

def killValues (k : KernelState) (pid : Int) : Value → Value → Outcome
  | .int targetPid, .int signum => k.performs pid (.kill targetPid signum)
  | .int targetPid, .str _ =>
      match k.processTable.get targetPid with
      | none => k.returns (-ESRCH)
      | some _ => k.returns (-EINVAL)
  | .str _, _ => k.returns (-ESRCH)

/-! ## Dispatch -/

/-- Defaults stand for the arguments that are missing, and those beyond the ones of the
handler are dropped; a handler called without an argument it requires raises `TypeError`. -/
def callHandler (k : KernelState) (pid nr : Int) (args : List Value) : Outcome :=
  match nr with
  | 0 =>
      match args[0]? with
      | none => k.raises .typeError
      | some fd => k.readValues pid fd (args.getD 1 (.int 4096))
  | 1 =>
      match args[0]? with
      | none => k.raises .typeError
      | some fd => k.writeValues pid fd args[1]?
  | 2 => k.openatValues pid (args.getD 1 (.str [])) (args.getD 2 (.str "r".toList))
  | 3 =>
      match args[0]? with
      | none => k.raises .typeError
      | some fd => k.closeValues pid fd
  | 9 =>
      k.mmapValues pid (args.getD 0 (.int 0)) (args.getD 1 (.int 4096))
        (args.getD 2 (.str "rw-".toList)) (args.getD 3 (.str "[mmap]".toList))
  | 11 => k.munmapValues pid (args.getD 0 (.int 0))
  | 12 => k.brkValues pid (args.getD 0 (.int 0))
  | 35 => k.performs pid (.nanosleep 0 0)
  | 39 => k.performs pid .getpid
  | 57 => k.performs pid .fork
  | 59 => k.execveValues pid (args.getD 0 (.str []))
  | 60 => k.exitValues pid (args.getD 0 (.int 0))
  | 61 => k.performs pid (.wait4 (-1) 0)
  | 62 => k.killValues pid (args.getD 0 (.int 0)) (args.getD 1 (.int 15))
  | _ => k.performs pid .unknown

def dispatchValues (k : KernelState) (pid nr : Int) (args : List Value) : Outcome :=
  if Loggable pid nr (args.map Value.arg) then k.callHandler pid nr args else k.raises .valueError

section Log

variable {k : KernelState} {pid nr : Int} {args : List Value}

theorem dispatchValues_of_loggable (h : Loggable pid nr (args.map Value.arg)) :
    k.dispatchValues pid nr args = k.callHandler pid nr args :=
  if_pos h

theorem dispatchValues_of_not_loggable (h : ¬ Loggable pid nr (args.map Value.arg)) :
    k.dispatchValues pid nr args = k.raises .valueError :=
  if_neg h

end Log

end KernelState

/-! ## Declared types -/

section Argument

variable {args : List Value} {i : Nat}

theorem intArg_eq_some {default n : Int} :
    intArg (args.map Value.arg) i (some default) = some n ↔
      args.getD i (.int default) = .int n := by
  rw [intArg, argument, List.getElem?_map, List.getD_eq_getElem?_getD]
  rcases args[i]? with - | - | -
  · simp
  · simp [Value.arg, Arg.int?]
  · simp [Value.arg, Arg.int?]

theorem intArg_required {n : Int} :
    intArg (args.map Value.arg) i none = some n ↔ args[i]? = some (.int n) := by
  rw [intArg, argument, List.getElem?_map]
  rcases args[i]? with - | - | -
  · simp
  · simp [Value.arg, Arg.int?]
  · simp [Value.arg, Arg.int?]

theorem strArg_eq_some {default text : Str} :
    strArg (args.map Value.arg) i (some default) = some text ↔
      args.getD i (.str default) = .str text := by
  rw [strArg, argument, List.getElem?_map, List.getD_eq_getElem?_getD]
  rcases args[i]? with - | - | -
  · simp
  · simp [Value.arg, Arg.str?]
  · simp [Value.arg, Arg.str?]

theorem bytesArg_eq_some {default data : Bytes} :
    bytesArg (args.map Value.arg) i (some default) = some data ↔
      args[i]? = none ∧ default = data := by
  rw [bytesArg, argument, List.getElem?_map]
  rcases args[i]? with - | - | -
  · simp
  · simp [Value.arg, Arg.bytes?]
  · simp [Value.arg, Arg.bytes?]

end Argument

namespace KernelState

/-- With arguments of the declared types the handlers do what they did above. -/
theorem callHandler_of_decode {nr : Int} {args : List Value} {call : Syscall}
    (h : decode nr (args.map Value.arg) = some call) (k : KernelState) (pid : Int) :
    k.callHandler pid nr args = k.performs pid call := by
  unfold decode at h
  unfold callHandler
  split at h
  all_goals
    simp only [Option.bind_eq_bind, Option.bind_eq_some_iff, Option.pure_def, Option.some.injEq,
      intArg_eq_some, intArg_required, strArg_eq_some, bytesArg_eq_some] at h
  · obtain ⟨fd, hfd, size, hsize, rfl⟩ := h
    simp only [hfd, hsize, readValues]
  · obtain ⟨fd, hfd, data, ⟨hdata, rfl⟩, rfl⟩ := h
    simp only [hfd, hdata, writeValues]
  · obtain ⟨dirfd, -, path, hpath, flags, hflags, rfl⟩ := h
    simp only [hpath, hflags, openatValues]
    rfl
  · obtain ⟨fd, hfd, rfl⟩ := h
    simp only [hfd, closeValues]
  · obtain ⟨addr, haddr, length, hlength, flags, hflags, name, hname, rfl⟩ := h
    simp only [haddr, hlength, hflags, hname, mmapValues, Value.text]
  · obtain ⟨addr, haddr, length, -, rfl⟩ := h
    simp only [haddr, munmapValues]
    rfl
  · obtain ⟨newBrk, hbrk, rfl⟩ := h
    simp only [hbrk, brkValues]
  · obtain ⟨seconds, -, nanos, -, rfl⟩ := h
    rfl
  · subst h
    rfl
  · subst h
    rfl
  · obtain ⟨path, hpath, argv, -, envp, -, rfl⟩ := h
    simp only [hpath, execveValues]
    rfl
  · obtain ⟨code, hcode, rfl⟩ := h
    simp only [hcode, exitValues]
  · obtain ⟨childPid, -, options, -, rfl⟩ := h
    rfl
  · obtain ⟨targetPid, htarget, signum, hsignum, rfl⟩ := h
    simp only [htarget, hsignum, killValues]
  · subst h
    grind

theorem performs_returns (k : KernelState) (pid : Int) (call : Syscall) :
    ∃ r, (k.perform pid call).1 = .ok r ∧ (k.performs pid call).1 = .ok r := by
  obtain ⟨r, hr⟩ := k.perform_returns pid call
  exact ⟨r, hr, by rw [performs, hr]; rfl⟩

/-! ## The state that is left -/

def Leaves (k : KernelState) (pid : Int) (outcome : Outcome) : Prop :=
  (∃ call, outcome.2 = (k.perform pid call).2) ∨ ∃ vmm, outcome.2 = { k with vmm := vmm }

variable (k : KernelState) (pid : Int)

theorem leaves_performs (call : Syscall) : k.Leaves pid (k.performs pid call) :=
  Or.inl ⟨call, rfl⟩

theorem leaves_returns (r : Int) : k.Leaves pid (k.returns r) :=
  Or.inr ⟨k.vmm, rfl⟩

theorem leaves_raises (error : PyError) : k.Leaves pid (k.raises error) :=
  Or.inr ⟨k.vmm, rfl⟩

theorem leaves_badKey : k.Leaves pid (k.badKey pid) := by
  unfold badKey
  split
  · exact k.leaves_returns pid _
  · exact k.leaves_returns pid _

theorem leaves_readValues (fd size : Value) : k.Leaves pid (k.readValues pid fd size) := by
  unfold readValues
  split
  · exact k.leaves_performs pid _
  · split
    · exact k.leaves_returns pid _
    · split
      · exact k.leaves_returns pid _
      · split
        · exact k.leaves_raises pid _
        · exact k.leaves_returns pid _
  · exact k.leaves_badKey pid

theorem leaves_writeValues (fd : Value) (data : Option Value) :
    k.Leaves pid (k.writeValues pid fd data) := by
  unfold writeValues
  split
  · exact k.leaves_performs pid _
  · split
    · exact k.leaves_returns pid _
    · split
      · split
        · exact k.leaves_returns pid _
        · split
          · exact k.leaves_returns pid _
          · exact k.leaves_raises pid _
      · exact k.leaves_performs pid _
  · exact k.leaves_badKey pid

theorem leaves_openatValues (path flags : Value) :
    k.Leaves pid (k.openatValues pid path flags) := by
  unfold openatValues
  split
  · exact k.leaves_performs pid _
  · split
    · exact k.leaves_returns pid _
    · split
      · exact k.leaves_returns pid _
      · split
        · exact k.leaves_returns pid _
        · exact k.leaves_raises pid _
  · split
    · exact k.leaves_returns pid _
    · split
      · exact k.leaves_returns pid _
      · split
        · exact k.leaves_returns pid _
        · exact k.leaves_raises pid _

theorem leaves_closeValues (fd : Value) : k.Leaves pid (k.closeValues pid fd) := by
  cases fd with
  | int fd => exact k.leaves_performs pid _
  | str fd => exact k.leaves_badKey pid

theorem leaves_mmapValues (addr length flags name : Value) :
    k.Leaves pid (k.mmapValues pid addr length flags name) := by
  unfold mmapValues
  split
  · exact k.leaves_performs pid _
  · split
    · exact k.leaves_returns pid _
    · split
      · exact k.leaves_returns pid _
      · split
        · exact k.leaves_returns pid _
        · dsimp only
          split
          · exact Or.inr ⟨_, rfl⟩
          · exact Or.inr ⟨_, rfl⟩
  · exact k.leaves_raises pid _

theorem leaves_execveValues (path : Value) : k.Leaves pid (k.execveValues pid path) := by
  unfold execveValues
  split
  · exact k.leaves_performs pid _
  · split
    · exact k.leaves_returns pid _
    · split
      · exact k.leaves_performs pid _
      · exact k.leaves_raises pid _

theorem leaves_killValues (targetPid signum : Value) :
    k.Leaves pid (k.killValues pid targetPid signum) := by
  unfold killValues
  split
  · exact k.leaves_performs pid _
  · split
    · exact k.leaves_returns pid _
    · exact k.leaves_returns pid _
  · exact k.leaves_returns pid _

theorem leaves_callHandler (nr : Int) (args : List Value) :
    k.Leaves pid (k.callHandler pid nr args) := by
  unfold callHandler
  split
  · split
    · exact k.leaves_raises pid _
    · exact k.leaves_readValues pid _ _
  · split
    · exact k.leaves_raises pid _
    · exact k.leaves_writeValues pid _ _
  · exact k.leaves_openatValues pid _ _
  · split
    · exact k.leaves_raises pid _
    · exact k.leaves_closeValues pid _
  · exact k.leaves_mmapValues pid _ _ _ _
  · cases args.getD 0 (.int 0) with
    | int addr => exact k.leaves_performs pid _
    | str addr => exact k.leaves_returns pid _
  · cases args.getD 0 (.int 0) with
    | int newBrk => exact k.leaves_performs pid _
    | str newBrk => exact k.leaves_raises pid _
  · exact k.leaves_performs pid _
  · exact k.leaves_performs pid _
  · exact k.leaves_performs pid _
  · exact k.leaves_execveValues pid _
  · cases args.getD 0 (.int 0) with
    | int code => exact k.leaves_performs pid _
    | str code => exact k.leaves_performs pid _
  · exact k.leaves_performs pid _
  · exact k.leaves_killValues pid _ _
  · exact k.leaves_performs pid _

/-- Whatever the types are, a call does to the tables what some call with declared types
does, or it takes frames. -/
theorem leaves_dispatchValues (nr : Int) (args : List Value) :
    k.Leaves pid (k.dispatchValues pid nr args) := by
  unfold dispatchValues
  split
  · exact k.leaves_callHandler pid nr args
  · exact k.leaves_raises pid _

end KernelState

end ComputeKernel.Kernel
