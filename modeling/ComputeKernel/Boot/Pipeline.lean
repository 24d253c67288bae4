import Mathlib.Data.List.Nodup
import ComputeKernel.Base
import ComputeKernel.Lib.Run

/-!
# The boot pipeline

Eight stages are run in order, one by one or all that are left.  The index moves on before
a stage runs, so no stage is run twice.
-/

namespace ComputeKernel.Boot

open Lib.Run

inductive BootStage
  | firmwareHandoff
  | bootloaderHandoff
  | archEarlyInit
  | memoryBringup
  | interruptTimerSetup
  | schedulerStart
  | vfsDeviceInit
  | userspaceInit
  deriving DecidableEq, Repr

structure BootStageResult where
  stage : BootStage
  success : Bool
  message : Str
  deriving DecidableEq, Repr

/-- What a stage handler does: it returns a result or raises an exception. -/
inductive Outcome
  | success (message : Str)
  | failure (message : Str)
  | exception (message : Str)
  deriving DecidableEq, Repr

def Outcome.succeeds : Outcome → Bool
  | .success _ => true
  | .failure _ => false
  | .exception _ => false

/-- The handlers' outcomes during one call; a call runs no stage twice. -/
abbrev Handlers := BootStage → Outcome

def runStage (handlers : Handlers) (stage : BootStage) : BootStageResult :=
  match handlers stage with
  | .success message => ⟨stage, true, message⟩
  | .failure message => ⟨stage, false, message⟩
  | .exception message => ⟨stage, false, message⟩

@[simp] theorem runStage_stage (handlers : Handlers) (stage : BootStage) :
    (runStage handlers stage).stage = stage := by
  unfold runStage
  split <;> rfl

@[simp] theorem runStage_success (handlers : Handlers) (stage : BootStage) :
    (runStage handlers stage).success = (handlers stage).succeeds := by
  unfold runStage
  split <;> simp_all [Outcome.succeeds]

def stages : List BootStage :=
  [.firmwareHandoff, .bootloaderHandoff, .archEarlyInit, .memoryBringup, .interruptTimerSetup,
    .schedulerStart, .vfsDeviceInit, .userspaceInit]

theorem mem_stages (stage : BootStage) : stage ∈ stages := by
  cases stage <;> decide

theorem stages_nodup : stages.Nodup := by
  decide

structure BootPipeline where
  stageIndex : Nat
  results : List BootStageResult
  booted : Bool
  deriving DecidableEq, Repr

namespace BootPipeline

def init : BootPipeline :=
  ⟨0, [], false⟩

def currentStage (p : BootPipeline) : Option BootStage :=
  stages[p.stageIndex]?

/-- The index moves on whatever the outcome is. -/
def runNext (p : BootPipeline) (handlers : Handlers) (stage : BootStage) :
    BootStageResult × BootPipeline :=
  let result := runStage handlers stage
  (result, { p with stageIndex := p.stageIndex + 1, results := p.results ++ [result] })

def step (p : BootPipeline) (handlers : Handlers) : Option BootStageResult × BootPipeline :=
  match p.currentStage with
  | none => (none, p)
  | some stage =>
      let (result, p) := p.runNext handlers stage
      (some result, p)

def runAllLoop (handlers : Handlers) : List BootStage → BootPipeline → Bool × BootPipeline
  | [], p => (true, { p with booted := true })
  | stage :: rest, p =>
      let (result, p) := p.runNext handlers stage
      if result.success then runAllLoop handlers rest p else (false, p)

def runAll (p : BootPipeline) (handlers : Handlers) : Bool × BootPipeline :=
  runAllLoop handlers (stages.drop p.stageIndex) p

inductive Call
  | runAll (handlers : Handlers)
  | step (handlers : Handlers)

def perform (p : BootPipeline) : Call → BootPipeline
  | .runAll handlers => (p.runAll handlers).2
  | .step handlers => (p.step handlers).2

def AllSucceeded (p : BootPipeline) : Prop :=
  ∀ stage, ∃ result ∈ p.results, result.stage = stage ∧ result.success = true

def FlagCorrect (p : BootPipeline) : Prop :=
  p.booted = true ↔ p.AllSucceeded

def ReportsTruly (p : BootPipeline) : Call → Prop
  | .runAll handlers => (p.runAll handlers).1 = true → (p.runAll handlers).2.AllSucceeded
  | .step _ => True

/-- A single step is not the one that completes a boot without failures, and `runAll` does
not get through the stages that are left once a stage has failed. -/
def Permits (p : BootPipeline) : Call → Prop
  | .runAll handlers =>
      (∀ result ∈ p.results, result.success = true) ∨
      ∃ stage ∈ stages.drop p.stageIndex, (handlers stage).succeeds = false
  | .step handlers =>
      ¬ (p.stageIndex + 1 = stages.length ∧ (∀ result ∈ p.results, result.success = true) ∧
        (handlers .userspaceInit).succeeds = true)

/-- The log has the stages that were run, in order, and only a finished pipeline has the
flag set. -/
structure InOrder (p : BootPipeline) : Prop where
  logged : p.results.map BootStageResult.stage = stages.take p.stageIndex
  le : p.stageIndex ≤ stages.length
  finished : p.booted = true → p.stageIndex = stages.length

theorem inOrder_init : init.InOrder where
  logged := rfl
  le := Nat.zero_le _
  finished := by
    intro h
    cases h

theorem InOrder.allSucceeded_iff {p : BootPipeline} (h : p.InOrder) :
    p.AllSucceeded ↔
      p.stageIndex = stages.length ∧ ∀ result ∈ p.results, result.success = true := by
  have hnodup : (p.results.map BootStageResult.stage).Nodup := by
    rw [h.logged]
    exact stages_nodup.sublist (List.take_sublist _ _)
  constructor
  · intro hall
    constructor
    · -- the last stage is in the log
      by_contra hne
      have hlt : p.stageIndex < stages.length := Nat.lt_of_le_of_ne h.le hne
      obtain ⟨result, hmem, hstage, -⟩ := hall stages[p.stageIndex]
      have htaken : stages[p.stageIndex] ∈ stages.take p.stageIndex := by
        rw [← h.logged, ← hstage]
        exact List.mem_map_of_mem hmem
      obtain ⟨i, hi, hget⟩ := List.mem_take_iff_getElem.mp htaken
      have hindex := (List.Nodup.getElem_inj_iff stages_nodup).mp hget
      omega
    · intro result hmem
      obtain ⟨other, hother, hstage, hsuccess⟩ := hall result.stage
      rwa [List.inj_on_of_nodup_map hnodup hmem hother hstage.symm]
  · rintro ⟨hindex, hall⟩ stage
    have hmem : stage ∈ p.results.map BootStageResult.stage := by
      rw [h.logged, hindex, List.take_length]
      exact mem_stages stage
    obtain ⟨result, hresult, hstage⟩ := List.mem_map.mp hmem
    exact ⟨result, hresult, hstage, hall result hresult⟩

/-! ## One stage -/

theorem drop_eq_cons {p : BootPipeline} {stage : BootStage} {rest : List BootStage}
    (h : stages.drop p.stageIndex = stage :: rest) :
    p.stageIndex < stages.length ∧ stages.take (p.stageIndex + 1) =
      stages.take p.stageIndex ++ [stage] ∧ stages.drop (p.stageIndex + 1) = rest := by
  have hlt : p.stageIndex < stages.length := by
    by_contra hle
    rw [List.drop_eq_nil_of_le (Nat.le_of_not_lt hle)] at h
    cases h
  rw [List.drop_eq_getElem_cons hlt] at h
  obtain ⟨rfl, hrest⟩ := List.cons.inj h
  exact ⟨hlt, (List.take_append_getElem hlt).symm, hrest⟩

theorem InOrder.runNext {p : BootPipeline} (h : p.InOrder) (handlers : Handlers)
    {stage : BootStage} {rest : List BootStage}
    (hstage : stages.drop p.stageIndex = stage :: rest) :
    (p.runNext handlers stage).2.InOrder := by
  obtain ⟨hlt, htake, -⟩ := drop_eq_cons hstage
  constructor
  · change (p.results ++ [runStage handlers stage]).map BootStageResult.stage =
      stages.take (p.stageIndex + 1)
    rw [List.map_append, h.logged, htake, List.map_singleton, runStage_stage]
  · exact hlt
  · intro hbooted
    have := h.finished hbooted
    omega

theorem InOrder.booted_eq_false {p : BootPipeline} (h : p.InOrder)
    (hlt : p.stageIndex < stages.length) : p.booted = false := by
  cases hbooted : p.booted with
  | false => rfl
  | true =>
      have := h.finished hbooted
      omega

theorem InOrder.flagCorrect_iff {p : BootPipeline} (h : p.InOrder) :
    p.FlagCorrect ↔ (p.booted = true ↔
      p.stageIndex = stages.length ∧ ∀ result ∈ p.results, result.success = true) := by
  unfold FlagCorrect
  rw [h.allSucceeded_iff]

theorem flagCorrect_runNext_iff {p : BootPipeline} (h : p.InOrder) (handlers : Handlers)
    {stage : BootStage} {rest : List BootStage}
    (hstage : stages.drop p.stageIndex = stage :: rest) :
    (p.runNext handlers stage).2.FlagCorrect ↔
      ¬ (p.stageIndex + 1 = stages.length ∧ (∀ result ∈ p.results, result.success = true) ∧
        (handlers stage).succeeds = true) := by
  obtain ⟨hlt, -, -⟩ := drop_eq_cons hstage
  have hbooted : (p.runNext handlers stage).2.booted = false := h.booted_eq_false hlt
  rw [(h.runNext handlers hstage).flagCorrect_iff, hbooted]
  change (_ ↔ p.stageIndex + 1 = stages.length ∧
    ∀ result ∈ p.results ++ [runStage handlers stage], result.success = true) ↔ _
  rw [List.forall_mem_append, List.forall_mem_singleton, runStage_success]
  simp

/-! ## All stages that are left -/

/-- The loop gets through when every stage that is left succeeds, and then sets the flag;
else it leaves a failure in the log. -/
theorem runAllLoop_spec (handlers : Handlers) (rest : List BootStage) (p : BootPipeline)
    (h : p.InOrder) (hrest : stages.drop p.stageIndex = rest) :
    (runAllLoop handlers rest p).2.InOrder ∧
      (((∀ stage ∈ rest, (handlers stage).succeeds = true) ∧
          (runAllLoop handlers rest p).1 = true ∧
          (runAllLoop handlers rest p).2.booted = true ∧
          ((∀ result ∈ (runAllLoop handlers rest p).2.results, result.success = true) ↔
            ∀ result ∈ p.results, result.success = true)) ∨
        ((∃ stage ∈ rest, (handlers stage).succeeds = false) ∧
          (runAllLoop handlers rest p).1 = false ∧
          (runAllLoop handlers rest p).2.booted = p.booted ∧
          ∃ result ∈ (runAllLoop handlers rest p).2.results, result.success = false)) := by
  induction rest generalizing p with
  | nil =>
      have hend : p.stageIndex = stages.length :=
        Nat.le_antisymm h.le (List.drop_eq_nil_iff.mp hrest)
      exact ⟨⟨h.logged, h.le, fun _ => hend⟩, Or.inl ⟨by simp, rfl, rfl, Iff.rfl⟩⟩
  | cons stage rest ih =>
      have hnext := h.runNext handlers hrest
      obtain ⟨-, -, htail⟩ := drop_eq_cons hrest
      have hsuccess : (p.runNext handlers stage).1.success = (handlers stage).succeeds :=
        runStage_success handlers stage
      cases hstage : (handlers stage).succeeds with
      | true =>
          have hloop : runAllLoop handlers (stage :: rest) p =
              runAllLoop handlers rest (p.runNext handlers stage).2 := by
            rw [runAllLoop]
            exact if_pos (hsuccess.trans hstage)
          have hlogged : (∀ result ∈ (p.runNext handlers stage).2.results,
              result.success = true) ↔ ∀ result ∈ p.results, result.success = true := by
            change (∀ result ∈ p.results ++ [runStage handlers stage], _) ↔ _
            rw [List.forall_mem_append, List.forall_mem_singleton, runStage_success, hstage]
            exact and_iff_left rfl
          obtain ⟨horder, hcases⟩ := ih _ hnext htail
          rw [hloop]
          refine ⟨horder, ?_⟩
          rcases hcases with ⟨hall, hfst, hbooted, hresults⟩ | ⟨⟨failed, hmem, hfailed⟩, hfalse⟩
          · exact Or.inl ⟨List.forall_mem_cons.mpr ⟨hstage, hall⟩, hfst, hbooted,
              hresults.trans hlogged⟩
          · exact Or.inr ⟨⟨failed, List.mem_cons_of_mem _ hmem, hfailed⟩, hfalse⟩
      | false =>
          have hloop : runAllLoop handlers (stage :: rest) p =
              (false, (p.runNext handlers stage).2) := by
            rw [runAllLoop]
            exact if_neg (by simp [hstage])
          rw [hloop]
          refine ⟨hnext, Or.inr ⟨⟨stage, List.mem_cons_self, hstage⟩, rfl, rfl, ?_⟩⟩
          exact ⟨runStage handlers stage, List.mem_append_right _ (List.mem_singleton.mpr rfl),
            hsuccess.trans hstage⟩

/-! ## Runs -/

theorem inOrder_perform (p : BootPipeline) (call : Call) (h : p.InOrder) :
    (p.perform call).InOrder := by
  cases call with
  | runAll handlers => exact (runAllLoop_spec handlers _ p h rfl).1
  | step handlers =>
      change (p.step handlers).2.InOrder
      unfold step currentStage
      cases hstage : stages[p.stageIndex]? with
      | none => exact h
      | some stage =>
          obtain ⟨hlt, rfl⟩ := List.getElem?_eq_some_iff.mp hstage
          exact h.runNext handlers (List.drop_eq_getElem_cons hlt)

theorem flagCorrect_step_iff {p : BootPipeline} (h : p.InOrder) (hflag : p.FlagCorrect)
    (handlers : Handlers) :
    (p.perform (.step handlers)).FlagCorrect ↔ p.Permits (.step handlers) := by
  change (p.step handlers).2.FlagCorrect ↔ _
  unfold step currentStage
  cases hstage : stages[p.stageIndex]? with
  | none =>
      have hend := List.getElem?_eq_none_iff.mp hstage
      refine iff_of_true hflag ?_
      rintro ⟨hindex, -⟩
      omega
  | some stage =>
      obtain ⟨hlt, hget⟩ := List.getElem?_eq_some_iff.mp hstage
      have hdrop := List.drop_eq_getElem_cons hlt
      rw [hget] at hdrop
      refine (flagCorrect_runNext_iff h handlers hdrop).trans (not_congr ?_)
      apply and_congr_right
      intro hindex
      have hlast : stage = .userspaceInit := by
        have hseven : p.stageIndex = 7 := Nat.succ.inj hindex
        rw [hseven] at hstage
        exact (Option.some.inj hstage).symm
      rw [hlast]

theorem flagCorrect_runAll_iff {p : BootPipeline} (h : p.InOrder) (handlers : Handlers) :
    (p.perform (.runAll handlers)).FlagCorrect ↔ p.Permits (.runAll handlers) := by
  have hloop : runAllLoop handlers (stages.drop p.stageIndex) p = p.runAll handlers := rfl
  obtain ⟨horder, hcases⟩ := runAllLoop_spec handlers _ p h rfl
  rw [hloop] at horder hcases
  change (p.runAll handlers).2.FlagCorrect ↔ _
  rw [horder.flagCorrect_iff]
  rcases hcases with ⟨hall, -, hbooted, hresults⟩ | ⟨⟨stage, hstage, hfails⟩, -, hbooted, hlogged⟩
  · -- the flag is set, so nothing may have failed before
    have hend := horder.finished hbooted
    have hpermits : p.Permits (.runAll handlers) ↔
        ∀ result ∈ p.results, result.success = true := by
      apply or_iff_left
      rintro ⟨stage, hstage, hfalse⟩
      rw [hall stage hstage] at hfalse
      cases hfalse
    rw [hpermits, ← hresults, iff_true_left hbooted]
    exact and_iff_right hend
  · have hlt : p.stageIndex < stages.length := by
      by_contra hle
      rw [List.drop_eq_nil_of_le (Nat.le_of_not_lt hle)] at hstage
      cases hstage
    have hunset : (p.runAll handlers).2.booted = false := hbooted.trans (h.booted_eq_false hlt)
    have hfailed : ¬ ∀ result ∈ (p.runAll handlers).2.results, result.success = true := by
      intro hall
      obtain ⟨result, hmem, hfalse⟩ := hlogged
      rw [hall result hmem] at hfalse
      cases hfalse
    refine iff_of_true ?_ (Or.inr ⟨stage, hstage, hfails⟩)
    rw [hunset]
    exact iff_of_false Bool.false_ne_true fun hboth => hfailed hboth.2

theorem flagCorrect_perform_iff {p : BootPipeline} (h : p.InOrder) (hflag : p.FlagCorrect)
    (call : Call) : (p.perform call).FlagCorrect ↔ p.Permits call := by
  cases call with
  | runAll handlers => exact flagCorrect_runAll_iff h handlers
  | step handlers => exact flagCorrect_step_iff h hflag handlers

theorem reportsTruly_of_flagCorrect {p : BootPipeline} (h : p.InOrder) {call : Call}
    (hflag : (p.perform call).FlagCorrect) : p.ReportsTruly call := by
  cases call with
  | step handlers => trivial
  | runAll handlers =>
      intro hreport
      obtain ⟨-, ⟨-, -, hbooted, -⟩ | ⟨-, hfalse, -⟩⟩ := runAllLoop_spec handlers _ p h rfl
      · exact hflag.mp hbooted
      · have : (p.runAll handlers).1 = false := hfalse
        rw [hreport] at this
        cases this

/-- In a run from a new pipeline the flag says throughout whether every stage succeeded, and
every report of `runAll` is true, exactly when every call is permitted. -/
theorem always_flagCorrect_iff (calls : List Call) :
    Always perform FlagCorrect init calls ∧ Guarded perform ReportsTruly init calls ↔
      Guarded perform Permits init calls := by
  apply always_and_guarded_iff (I := InOrder) inOrder_perform
  · intro p call horder hflag hpermits
    have hnext := (flagCorrect_perform_iff horder hflag call).mpr hpermits
    exact ⟨hnext, reportsTruly_of_flagCorrect horder hnext⟩
  · intro p call horder hflag hforbidden _ hnext
    exact hforbidden ((flagCorrect_perform_iff horder hflag call).mp hnext)
  · exact inOrder_init
  · rw [inOrder_init.flagCorrect_iff]
    exact iff_of_false Bool.false_ne_true fun h => absurd h.1 (by decide)

/-- Eight successful steps leave the flag unset, and `runAll` returns true after a stage
has failed. -/
theorem flag_wrong :
    let succeed : Handlers := fun _ => .success []
    let fail : Handlers := fun _ => .failure []
    let stepped := run perform init (List.replicate 8 (Call.step succeed))
    let failed := init.perform (.runAll fail)
    stepped.booted = false ∧ stepped.AllSucceeded ∧
    (failed.runAll succeed).1 = true ∧ ¬ (failed.runAll succeed).2.AllSucceeded ∧
    ¬ Always perform FlagCorrect init (List.replicate 8 (Call.step succeed)) := by
  intro succeed fail stepped failed
  have hstepped : stepped.booted = false := rfl
  have hall : stepped.AllSucceeded := by
    intro stage
    exact ⟨⟨stage, true, []⟩, by cases stage <;> decide, rfl, rfl⟩
  refine ⟨hstepped, hall, rfl, ?_, ?_⟩
  · intro h
    obtain ⟨result, hmem, hstage, hsuccess⟩ := h .firmwareHandoff
    have hfirst : result = ⟨.firmwareHandoff, false, []⟩ ∨ result.stage ≠ .firmwareHandoff := by
      revert result
      decide
    rcases hfirst with rfl | hne
    · cases hsuccess
    · exact hne hstage
  · intro h
    have hend := always_iff_prefixes.mp h _ (List.prefix_refl _)
    have := hend.mpr hall
    rw [hstepped] at this
    cases this

end BootPipeline

end ComputeKernel.Boot
