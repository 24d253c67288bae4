import ComputeKernel.Kernel.Orphans
import ComputeKernel.Lib.Protocol

/-!
# Lives of processes

Process numbers are used again, so the same number names one process after another.  What the
callers of `fork`, `exit` and `wait4` are told about a number is nevertheless a sequence of
whole lives: it is forked, it exits, once or more, it is reaped by the process that forked it,
and only then forked again.
-/

namespace ComputeKernel.Kernel

open Lib Lib.Run Fs Memory Tasks Vfs

/-- What a process number stands for, with the parent of the process. -/
inductive Phase
  | absent
  | live (parent : Int)
  | zombie (parent : Int)
  deriving DecidableEq

/-- What the caller of a request learns about a process number. -/
inductive LifeEvent
  | forked (parent : Int)
  | exited
  | reaped (parent : Int)
  deriving DecidableEq

def Phase.next : Phase → LifeEvent → Option Phase
  | .absent, .forked parent => some (.live parent)
  | .live parent, .exited => some (.zombie parent)
  | .zombie parent, .exited => some (.zombie parent)
  | .zombie parent, .reaped reaper => if reaper = parent then some .absent else none
  | _, _ => none

def lifeEvent (c : Int) (req : Request) (answer : Except FsError Int) : Option LifeEvent :=
  match req.call, answer with
  | .fork, .ok r => if 0 < r ∧ r = c then some (.forked req.pid) else none
  | .exit _, .ok r => if r = 0 ∧ req.pid = c then some .exited else none
  | .wait4 _ _, .ok r => if 0 < r ∧ r = c then some (.reaped req.pid) else none
  | _, _ => none

def Phase.isZombie : Phase → Bool
  | .zombie _ => true
  | _ => false

def phaseOf (proc : Process) : Phase :=
  if proc.state = .zombie then .zombie proc.ppid else .live proc.ppid

namespace KernelState

def phase (c : Int) (k : KernelState) : Phase :=
  match k.processTable.get c with
  | none => .absent
  | some proc => phaseOf proc

theorem phase_of_get {k : KernelState} {c : Int} {proc : Process}
    (h : k.processTable.get c = some proc) : k.phase c = phaseOf proc := by
  unfold phase
  rw [h]

theorem phase_of_none {k : KernelState} {c : Int} (h : k.processTable.get c = none) :
    k.phase c = .absent := by
  unfold phase
  rw [h]

/-! ## Calls that end or begin no life -/

theorem phase_update {k k' : KernelState} {pid : Int} {f : Process → Process}
    (hk' : k'.processTable = k.processTable.update pid f)
    (hf : ∀ proc, phaseOf (f proc) = phaseOf proc) (c : Int) :
    k'.phase c = k.phase c := by
  unfold phase
  rw [hk', ProcessTable.get_update]
  cases k.processTable.get c with
  | none => rfl
  | some proc =>
      rw [Option.map_some]
      dsimp only
      split
      · exact hf proc
      · rfl

theorem phase_effect {k k' : KernelState} {pid : Int} {call : Syscall}
    {result : Except FsError Int} (he : Effect k pid call result k') (hfork : call ≠ .fork)
    (hexit : ∀ code, call ≠ .exit code)
    (hwait : ∀ childPid options, call ≠ .wait4 childPid options) (c : Int) :
    k'.phase c = k.phase c := by
  cases he with
  | openat ref fs inode _ =>
      refine phase_update rfl ?_ c
      exact fun proc => rfl
  | close _ _ =>
      refine phase_update rfl ?_ c
      exact fun proc => rfl
  | execve =>
      refine phase_update rfl ?_ c
      exact fun proc => rfl
  | fork _ => exact absurd rfl hfork
  | exit => exact absurd rfl (hexit _)
  | wait4 _ _ _ => exact absurd rfl (hwait _ _)
  | _ => rfl

/-! ## Calls that do -/

theorem phase_sysFork {k : KernelState} (h : Inv k) {pid : Int} {parent : Process}
    (hparent : k.processTable.get pid = some parent) (c : Int) :
    (k.sysFork pid).2.phase c =
      if c = k.processTable.pidAlloc.alloc.1 then .live pid else k.phase c := by
  have hfresh := h.pids.get_alloc
  rw [sysFork_of_get hparent]
  generalize hchild : k.processTable.pidAlloc.alloc.1 = child at hfresh ⊢
  unfold phase
  rw [ProcessTable.get_update, ProcessTable.get_spawn, hchild]
  by_cases hc : c = child
  · subst hc
    have hne : c ≠ pid := by
      rintro rfl
      rw [hfresh] at hparent
      cases hparent
    rw [if_pos rfl, if_pos rfl, Option.map_some, Option.map_some, if_pos rfl, if_neg hne]
    rfl
  · rw [if_neg hc, if_neg hc]
    cases k.processTable.get c with
    | none => rfl
    | some proc =>
        rw [Option.map_some, Option.map_some, if_neg hc]
        dsimp only
        split
        · rfl
        · rfl

theorem phase_sysExit {k : KernelState} {pid : Int} {proc : Process}
    (hproc : k.processTable.get pid = some proc) (code c : Int) :
    (k.sysExit pid code).2.phase c = if c = pid then .zombie proc.ppid else k.phase c := by
  unfold sysExit
  rw [hproc]
  dsimp only
  unfold phase
  rw [ProcessTable.get_update]
  by_cases hc : c = pid
  · rw [hc, hproc, Option.map_some, if_pos rfl, if_pos rfl]
    exact if_pos rfl
  · rw [if_neg hc]
    cases k.processTable.get c with
    | none => rfl
    | some other => rw [Option.map_some, if_neg hc]

theorem phase_sysWait4 {k : KernelState} (h : Inv k) {pid child : Int}
    (hreap : k.reapable pid = some child) (childPid options c : Int) :
    (k.sysWait4 pid childPid options).2.phase c = if c = child then .absent else k.phase c := by
  obtain ⟨parent, proc, hparent, hproc, -⟩ := reaped_of_reapable h hreap
  rw [sysWait4_of_reapable hreap]
  unfold phase
  rw [ProcessTable.get_remove hproc]
  by_cases hc : c = child
  · rw [if_pos hc, if_pos hc]
    rfl
  · rw [if_neg hc, if_neg hc]
    cases k.processTable.get c with
    | none => rfl
    | some other =>
        rw [Option.map_some]
        dsimp only
        split
        · rfl
        · rfl

def LifeStep (c : Int) (k : KernelState) (req : Request) : Prop :=
  Protocol.advance Phase.next (k.phase c) (lifeEvent c req (k.answer req)) =
    some ((k.step req).phase c)

section Calls

variable {k : KernelState} (h : FamilyInv k) (c pid : Int)

include h

theorem lifeStep_fork : LifeStep c k ⟨pid, .fork⟩ := by
  change Protocol.advance Phase.next (k.phase c) (lifeEvent c _ (.ok (k.sysFork pid).1)) =
    some ((k.sysFork pid).2.phase c)
  cases hparent : k.processTable.get pid with
  | none =>
      rw [sysFork_of_none hparent]
      rfl
  | some parent =>
      have htwo := h.inv.pids.two_le_alloc
      rw [phase_sysFork h.inv hparent, sysFork_of_get hparent]
      split
      · rename_i hc
        have hevent : lifeEvent c ⟨pid, .fork⟩ (.ok k.processTable.pidAlloc.alloc.1) =
            some (.forked pid) := if_pos ⟨by omega, hc.symm⟩
        rw [hevent, hc, phase_of_none h.inv.pids.get_alloc]
        rfl
      · rename_i hc
        have hevent : lifeEvent c ⟨pid, .fork⟩ (.ok k.processTable.pidAlloc.alloc.1) = none :=
          if_neg fun hyes => hc hyes.2.symm
        rw [hevent]
        rfl

omit h in
theorem lifeStep_exit (code : Int) : LifeStep c k ⟨pid, .exit code⟩ := by
  change Protocol.advance Phase.next (k.phase c) (lifeEvent c _ (.ok (k.sysExit pid code).1)) =
    some ((k.sysExit pid code).2.phase c)
  cases hproc : k.processTable.get pid with
  | none =>
      unfold sysExit
      rw [hproc]
      rfl
  | some proc =>
      have hresult : (k.sysExit pid code).1 = 0 := by
        unfold sysExit
        rw [hproc]
      rw [phase_sysExit hproc, hresult]
      split
      · rename_i hc
        have hevent : lifeEvent c ⟨pid, .exit code⟩ (.ok 0) = some .exited := if_pos ⟨rfl, hc.symm⟩
        rw [hevent, hc, phase_of_get hproc]
        unfold phaseOf
        split
        · rfl
        · rfl
      · rename_i hc
        have hevent : lifeEvent c ⟨pid, .exit code⟩ (.ok 0) = none :=
          if_neg fun hyes => hc hyes.2.symm
        rw [hevent]
        rfl

theorem lifeStep_wait4 (childPid options : Int) : LifeStep c k ⟨pid, .wait4 childPid options⟩ := by
  change Protocol.advance Phase.next (k.phase c)
    (lifeEvent c _ (.ok (k.sysWait4 pid childPid options).1)) =
      some ((k.sysWait4 pid childPid options).2.phase c)
  cases hreap : k.reapable pid with
  | none =>
      obtain ⟨hresult, hsame⟩ := sysWait4_of_none hreap childPid options
      have hevent : lifeEvent c ⟨pid, .wait4 childPid options⟩
          (.ok (k.sysWait4 pid childPid options).1) = none :=
        if_neg fun hyes => absurd hyes.1 (Int.not_lt.mpr hresult)
      rw [hevent, hsame]
      rfl
  | some child =>
      have htwo := h.two_le_child pid child (lists_of_reapable hreap).1
      obtain ⟨parent, proc, hparent, hproc, hlisted, hppid, hzombie, hgone⟩ :=
        reaped_of_reapable h.inv hreap
      rw [phase_sysWait4 h.inv hreap, sysWait4_of_reapable hreap]
      split
      · rename_i hc
        have hevent : lifeEvent c ⟨pid, .wait4 childPid options⟩ (.ok child) =
            some (.reaped pid) := if_pos ⟨by omega, hc.symm⟩
        have hphase : phaseOf proc = .zombie pid := by
          unfold phaseOf
          rw [if_pos hzombie, hppid]
        rw [hevent, hc, phase_of_get hproc, hphase]
        exact if_pos rfl
      · rename_i hc
        have hevent : lifeEvent c ⟨pid, .wait4 childPid options⟩ (.ok child) = none :=
          if_neg fun hyes => hc hyes.2.symm
        rw [hevent]
        rfl

theorem lifeStep (req : Request) : LifeStep c k req := by
  obtain ⟨pid, call⟩ := req
  have he := effect_step h.inv ⟨pid, call⟩
  cases call with
  | fork => exact lifeStep_fork h c pid
  | exit code => exact lifeStep_exit c pid code
  | wait4 childPid options => exact lifeStep_wait4 h c pid childPid options
  | _ =>
      refine congrArg some (phase_effect he ?_ ?_ ?_ c).symm
      · intro heq
        cases heq
      · intro code heq
        cases heq
      · intro childPid options heq
        cases heq

end Calls

/-! ## Runs -/

def lifeOf (c : Int) (k : KernelState) (reqs : List Request) : List LifeEvent :=
  Protocol.history step (fun k req => lifeEvent c req (k.answer req)) k reqs

/-- From booting on, the answers to `fork`, `exit` and `wait4` tell of every process number a
sequence of whole lives, and where it ends is what the process table has. -/
theorem replay_lifeOf (c : Int) (reqs : List Request) :
    Protocol.replay Phase.next (boot.phase c) (lifeOf c boot reqs) =
      some ((run step boot reqs).phase c) :=
  Protocol.replay_history familyInv_step (fun _ req h => lifeStep h c req) familyInv_boot reqs

/-- Numbers 0 and 2 are taken when the kernel has booted. -/
example : boot.phase 0 = .live 0 ∧ boot.phase 2 = .live 0 ∧ boot.phase 3 = .absent := by
  decide +kernel

end KernelState

end ComputeKernel.Kernel
