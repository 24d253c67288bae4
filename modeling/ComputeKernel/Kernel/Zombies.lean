import ComputeKernel.Kernel.Idle

/-!
# Zombies

The handlers look for the caller in the process table and never at its state.  What a process
does after its exit is what any process does, so it is inert for as long as all of its calls
are calls that change nothing.
-/

namespace ComputeKernel.Kernel

open Lib Lib.Run Tasks

/-- A kernel, and whether the process that is watched has been reaped. -/
structure Watch where
  kernel : KernelState
  reaped : Bool

namespace Watch

open KernelState

def start (z : Int) (k : KernelState) : Watch where
  kernel := k
  reaped := decide (z ∉ k.processTable.table)

def step (z : Int) (w : Watch) (req : Request) : Watch where
  kernel := w.kernel.step req
  reaped := w.reaped || decide (z ∉ (w.kernel.step req).processTable.table)

def Exited (z code : Int) (w : Watch) : Prop :=
  w.reaped = false → ∃ proc, w.kernel.processTable.get z = some proc ∧
    proc.state = .zombie ∧ proc.exitCode = code

def Inert (z : Int) (w : Watch) (req : Request) : Prop :=
  w.reaped = false → req.pid = z → w.kernel.step req = w.kernel

def Idles (z : Int) (w : Watch) (req : Request) : Prop :=
  w.reaped = false → req.pid = z → w.kernel.Idle z req.call

structure Sound (z : Int) (w : Watch) : Prop where
  files : FilesInv w.kernel
  live : w.reaped = false → z ∈ w.kernel.processTable.table

variable {z code : Int}

theorem sound_start {k : KernelState} (h : FilesInv k) : Sound z (start z k) where
  files := h
  live := by simp [start]

theorem sound_step (w : Watch) (req : Request) (h : Sound z w) : Sound z (w.step z req) where
  files := filesInv_step w.kernel req h.files
  live := by simp [step]

theorem inert_iff_idles {w : Watch} (h : Sound z w) (req : Request) :
    Inert z w req ↔ Idles z w req := by
  refine forall_congr' fun hreaped => forall_congr' fun hpid => ?_
  subst hpid
  exact step_eq_self_iff h.files req.pid req.call

theorem exited_step {w : Watch} {req : Request} (h : Sound z w) (hexited : Exited z code w)
    (hinert : Inert z w req) : Exited z code (w.step z req) := by
  intro hreaped
  obtain ⟨hbefore, hlive⟩ : w.reaped = false ∧
      z ∈ (w.kernel.step req).processTable.table := by simpa [step] using hreaped
  obtain ⟨proc, hproc, hzombie⟩ := hexited hbefore
  refine ⟨proc, ?_, hzombie⟩
  change (w.kernel.step req).processTable.get z = some proc
  by_cases hpid : req.pid = z
  · rw [hinert hbefore hpid]
    exact hproc
  · have he := effect_step h.files.desc.inv req
    rcases sameFor_or_reaped_of_effect h.files.desc.inv he (fun heq => hpid heq.symm)
      (h.live hbefore) with hsame | ⟨-, hgone⟩
    · rw [hsame.process]
      exact hproc
    · obtain ⟨-, -, -, -, -, -, -, hnone⟩ := hgone
      exact absurd hlive (Dict.get?_eq_none.mp hnone)

theorem exited_start (k : KernelState) (z code : Int) :
    Exited z code (start z (k.step ⟨z, .exit code⟩)) := by
  intro hreaped
  have hlive : z ∈ (k.step ⟨z, .exit code⟩).processTable.table := by
    simpa [start] using hreaped
  change z ∈ (k.sysExit z code).2.processTable.table at hlive
  change ∃ proc, (k.sysExit z code).2.processTable.get z = some proc ∧ _
  unfold sysExit at hlive ⊢
  cases hproc : k.processTable.get z with
  | none =>
      rw [hproc] at hlive
      exact absurd hlive (Dict.get?_eq_none.mp hproc)
  | some proc =>
      refine ⟨proc.terminate code, ?_, rfl, rfl⟩
      dsimp only
      rw [ProcessTable.get_update, hproc, Option.map_some, if_pos rfl]

/-- From any exit on and until the process is reaped, it stays a zombie with the code of this
exit and changes nothing, exactly when all of its calls have nothing to do. -/
theorem inert_zombie_iff (reqs : List Request) (z code : Int) (more : List Request) :
    let w := start z ((run KernelState.step boot reqs).step ⟨z, .exit code⟩)
    Always (step z) (Exited z code) w more ∧ Guarded (step z) (Inert z) w more ↔
      Guarded (step z) (Idles z) w more := by
  intro w
  have h : FilesInv (run KernelState.step boot reqs) :=
    run_invariant filesInv_step filesInv_boot reqs
  apply always_and_guarded_iff (I := Sound z) sound_step
  · intro w req hsound hexited hidles
    have hinert := (inert_iff_idles hsound req).mpr hidles
    exact ⟨exited_step hsound hexited hinert, hinert⟩
  · intro w req hsound _ hbusy hinert
    exact absurd ((inert_iff_idles hsound req).mp hinert) hbusy
  · exact sound_start (filesInv_step _ _ h)
  · exact exited_start _ z code

/-- Process 3 exits with 7, and while it is a zombie it exits again with 9 and forks. -/
theorem zombie_exits_again :
    let k := run KernelState.step boot [⟨2, .fork⟩]
    let k' := run KernelState.step (k.step ⟨3, .exit 7⟩) [⟨3, .exit 9⟩]
    ((k'.processTable.get 3).map Process.exitCode = some 9 ∧ k'.answer ⟨3, .fork⟩ = .ok 4) ∧
    ¬ (Always (step 3) (Exited 3 7) (start 3 (k.step ⟨3, .exit 7⟩)) [⟨3, .exit 9⟩, ⟨3, .fork⟩] ∧
      Guarded (step 3) (Inert 3) (start 3 (k.step ⟨3, .exit 7⟩))
        [⟨3, .exit 9⟩, ⟨3, .fork⟩]) := by
  intro k k'
  have hcode : (k'.processTable.get 3).map Process.exitCode = some 9 := by decide +kernel
  refine ⟨⟨hcode, by decide +kernel⟩, ?_⟩
  rintro ⟨halways, -⟩
  have hexited := always_head halways.2
  obtain ⟨proc, hproc, -, hseven⟩ := hexited (by decide +kernel)
  have hproc : k'.processTable.get 3 = some proc := hproc
  rw [hproc, Option.map_some, hseven] at hcode
  cases hcode

end Watch

end ComputeKernel.Kernel
