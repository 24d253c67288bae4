import ComputeKernel.Kernel.Run

/-!
# The break of a recycled process number

Breaks are recorded by process number and neither reaping nor forking clears them, so
a forked child starts with whatever break its number has already.
-/

namespace ComputeKernel.Kernel.KernelState

open Lib Lib.Run Fs Memory Tasks Vfs

def brkAnswers (k : KernelState) (pid : Int) : List Int → List (Except FsError Int)
  | [] => []
  | newBrk :: rest =>
      k.answer ⟨pid, .brk newBrk⟩ :: brkAnswers (k.step ⟨pid, .brk newBrk⟩) pid rest

structure SameFreshBreak (k₁ : KernelState) (child₁ : Int) (k₂ : KernelState)
    (child₂ : Int) : Prop where
  same : ∀ newBrks, brkAnswers k₁ child₁ newBrks = brkAnswers k₂ child₂ newBrks
  initial₁ : k₁.answer ⟨child₁, .brk 0⟩ = .ok initialBrk
  initial₂ : k₂.answer ⟨child₂, .brk 0⟩ = .ok initialBrk

def BreaksRaised (k : KernelState) : Prop :=
  ∀ pid brk, k.brk.get? pid = some brk → initialBrk < brk

/-! ## One process -/

theorem answer_brk (k : KernelState) (pid newBrk : Int) :
    k.answer ⟨pid, .brk newBrk⟩ =
      .ok (if newBrk = 0 ∨ newBrk ≤ k.currentBrk pid then k.currentBrk pid else newBrk) := by
  change Except.ok (k.sysBrk pid newBrk).1 = _
  unfold sysBrk
  dsimp only
  split
  · rfl
  · rfl

theorem currentBrk_step_brk (k : KernelState) (pid newBrk : Int) :
    (k.step ⟨pid, .brk newBrk⟩).currentBrk pid =
      if newBrk = 0 ∨ newBrk ≤ k.currentBrk pid then k.currentBrk pid else newBrk := by
  change (k.sysBrk pid newBrk).2.currentBrk pid = _
  unfold sysBrk
  dsimp only
  split
  · rfl
  · change ((k.brk.set pid newBrk).get? pid).getD initialBrk = newBrk
    rw [Dict.get?_set_self]
    rfl

theorem brkAnswers_congr {k₁ k₂ : KernelState} {child₁ child₂ : Int}
    (h : k₁.currentBrk child₁ = k₂.currentBrk child₂) (newBrks : List Int) :
    brkAnswers k₁ child₁ newBrks = brkAnswers k₂ child₂ newBrks := by
  induction newBrks generalizing k₁ k₂ with
  | nil => rfl
  | cons newBrk newBrks ih =>
      have hnext : (k₁.step ⟨child₁, .brk newBrk⟩).currentBrk child₁ =
          (k₂.step ⟨child₂, .brk newBrk⟩).currentBrk child₂ := by
        rw [currentBrk_step_brk, currentBrk_step_brk, h]
      rw [brkAnswers, brkAnswers, answer_brk, answer_brk, h, ih hnext]

theorem currentBrk_of_not_mem {k : KernelState} {pid : Int} (h : pid ∉ k.brk) :
    k.currentBrk pid = initialBrk := by
  unfold currentBrk
  rw [Dict.get?_eq_none.mpr h]
  rfl

/-! ## Runs -/

theorem breaksRaised_boot : BreaksRaised boot := by
  intro pid brk hbrk
  cases hbrk

theorem breaksRaised_step (k : KernelState) (req : Request) (h : Inv k ∧ BreaksRaised k) :
    Inv (k.step req) ∧ BreaksRaised (k.step req) := by
  refine ⟨inv_step k req h.1, ?_⟩
  intro pid brk hbrk
  have he := effect_step h.1 req
  generalize k.answer req = result at he
  generalize k.step req = k' at he hbrk
  generalize req.pid = caller, req.call = call at he
  cases he with
  | @brk newBrk hgrow =>
      have hcurrent := initialBrk_le_currentBrk h.1.initialBrk_le caller
      exact Dict.forall_get?_set h.2 (by omega) pid brk hbrk
  | _ => exact h.2 pid brk hbrk

theorem breaksRaised_run (reqs : List Request) : BreaksRaised (run step boot reqs) :=
  (run_invariant breaksRaised_step ⟨inv_boot, breaksRaised_boot⟩ reqs).2

theorem sysFork_brk (k : KernelState) (pid : Int) : (k.sysFork pid).2.brk = k.brk := by
  cases hparent : k.processTable.get pid with
  | none => rw [sysFork_of_none hparent]
  | some parent => rw [sysFork_of_get hparent]

theorem not_mem_of_answer_brk {k : KernelState} (h : BreaksRaised k) {child : Int}
    (hbrk : k.answer ⟨child, .brk 0⟩ = .ok initialBrk) : child ∉ k.brk := by
  intro hmem
  obtain ⟨brk, hget⟩ := Dict.mem_iff_exists.mp hmem
  have hraised := h child brk hget
  have hcurrent : k.currentBrk child = brk := by
    unfold currentBrk
    rw [hget]
    rfl
  rw [answer_brk, if_pos (Or.inl rfl), hcurrent] at hbrk
  have := Except.ok.inj hbrk
  omega

/-- After any two runs that end with a fork, the two children get the same results from
any `brk` calls, from the initial break on, exactly when no break is recorded under
either number at the time of the fork. -/
theorem fork_fresh_break_iff (reqs₁ reqs₂ : List Request) (pid₁ pid₂ : Int) :
    let k₁ := run step boot reqs₁
    let k₂ := run step boot reqs₂
    let child₁ := (k₁.sysFork pid₁).1
    let child₂ := (k₂.sysFork pid₂).1
    SameFreshBreak (k₁.sysFork pid₁).2 child₁ (k₂.sysFork pid₂).2 child₂ ↔
      child₁ ∉ k₁.brk ∧ child₂ ∉ k₂.brk := by
  intro k₁ k₂ child₁ child₂
  have hraised₁ : BreaksRaised (k₁.sysFork pid₁).2 := by
    unfold BreaksRaised
    rw [sysFork_brk]
    exact breaksRaised_run reqs₁
  have hraised₂ : BreaksRaised (k₂.sysFork pid₂).2 := by
    unfold BreaksRaised
    rw [sysFork_brk]
    exact breaksRaised_run reqs₂
  rw [← k₁.sysFork_brk pid₁, ← k₂.sysFork_brk pid₂]
  constructor
  · intro h
    exact ⟨not_mem_of_answer_brk hraised₁ h.initial₁, not_mem_of_answer_brk hraised₂ h.initial₂⟩
  · rintro ⟨hfresh₁, hfresh₂⟩
    have hbreak₁ := currentBrk_of_not_mem hfresh₁
    have hbreak₂ := currentBrk_of_not_mem hfresh₂
    constructor
    · exact brkAnswers_congr (hbreak₁.trans hbreak₂.symm)
    · rw [answer_brk, if_pos (Or.inl rfl), hbreak₁]
    · rw [answer_brk, if_pos (Or.inl rfl), hbreak₂]

/-- The init process forks 3 after booting, and again after an earlier process 3 has
raised its break and was reaped. -/
theorem recycled_break :
    let k₁ := boot
    let k₂ := run step boot
      [⟨2, .fork⟩, ⟨3, .brk 0x602000⟩, ⟨3, .exit 0⟩, ⟨2, .wait4 (-1) 0⟩]
    k₁.processTable.get 2 = k₂.processTable.get 2 ∧
    (k₁.sysFork 2).1 = 3 ∧ (k₂.sysFork 2).1 = 3 ∧
    ¬ SameFreshBreak (k₁.sysFork 2).2 3 (k₂.sysFork 2).2 3 ∧
    (k₁.sysFork 2).2.answer ⟨3, .brk 0⟩ = .ok 0x601000 ∧
    (k₂.sysFork 2).2.answer ⟨3, .brk 0⟩ = .ok 0x602000 := by
  intro k₁ k₂
  have hstale : (k₂.sysFork 2).2.answer ⟨3, .brk 0⟩ = .ok 0x602000 := by decide +kernel
  refine ⟨by decide +kernel, by decide +kernel, by decide +kernel, ?_, by decide +kernel, hstale⟩
  intro h
  have hinitial := h.initial₂
  rw [hstale] at hinitial
  revert hinitial
  decide

end ComputeKernel.Kernel.KernelState
