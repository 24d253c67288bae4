import ComputeKernel.Kernel.Lifecycle
import ComputeKernel.Lib.Service

/-!
# Draining zombies

Between two exits the zombie children of a process are a queue: no call of any process adds to
it, and only a `wait4` of the parent takes from it, from the front.  Zombies are therefore
reaped in the order in which they were forked, not in the order in which they exited.
-/

namespace ComputeKernel.Kernel.KernelState

open Lib Lib.Run Fs Memory Tasks Vfs

def serve (k : KernelState) (req : Request) : Except FsError Int × KernelState :=
  k.perform req.pid req.call

def childrenOf (pid : Int) (k : KernelState) : List Int :=
  match k.processTable.get pid with
  | none => []
  | some proc => proc.children

def zombies (pid : Int) (k : KernelState) : List Int :=
  (k.childrenOf pid).filter k.processTable.isZombie

def waits (pid : Int) (req : Request) : Bool :=
  match req.call with
  | .wait4 _ _ => decide (req.pid = pid)
  | _ => false

def exits (req : Request) : Bool :=
  match req.call with
  | .exit _ => true
  | _ => false

theorem isZombie_eq (k : KernelState) (c : Int) :
    k.processTable.isZombie c = Phase.isZombie (k.phase c) := by
  unfold ProcessTable.isZombie phase phaseOf
  cases k.processTable.get c with
  | none => rfl
  | some proc =>
      dsimp only
      split
      · rename_i hzombie
        exact decide_eq_true hzombie
      · rename_i hlive
        exact decide_eq_false hlive

theorem head?_zombies (k : KernelState) (pid : Int) : (k.zombies pid).head? = k.reapable pid := by
  unfold zombies childrenOf reapable
  rw [List.head?_filter]
  cases k.processTable.get pid with
  | none => rfl
  | some proc => rfl

/-! ## Single calls -/

section Step

variable {k : KernelState} {pid : Int}

theorem zombies_congr {k' : KernelState} (hchildren : k'.childrenOf pid = k.childrenOf pid)
    (hphase : ∀ c ∈ k.childrenOf pid, k'.phase c = k.phase c) :
    k'.zombies pid = k.zombies pid := by
  unfold zombies
  rw [hchildren]
  apply List.filter_congr
  intro c hc
  rw [isZombie_eq, isZombie_eq, hphase c hc]

theorem lists_iff_mem_childrenOf {c : Int} :
    k.processTable.Lists pid c ↔ c ∈ k.childrenOf pid := by
  unfold ProcessTable.Lists childrenOf
  cases k.processTable.get pid with
  | none => simp
  | some proc => simp

theorem childrenOf_update {k' : KernelState} {other : Int} {f : Process → Process}
    (hk' : k'.processTable = k.processTable.update other f)
    (hf : ∀ proc, (f proc).children = proc.children) :
    k'.childrenOf pid = k.childrenOf pid := by
  unfold childrenOf
  rw [hk', ProcessTable.get_update]
  cases k.processTable.get pid with
  | none => rfl
  | some proc =>
      rw [Option.map_some]
      dsimp only
      split
      · exact hf proc
      · rfl

theorem childrenOf_effect {k' : KernelState} {caller : Int} {call : Syscall}
    {result : Except FsError Int} (he : Effect k caller call result k') (hfork : call ≠ .fork)
    (hwait : ∀ childPid options, call ≠ .wait4 childPid options) :
    k'.childrenOf pid = k.childrenOf pid := by
  cases he with
  | openat ref fs inode _ =>
      apply childrenOf_update rfl
      exact fun proc => rfl
  | close _ _ =>
      apply childrenOf_update rfl
      exact fun proc => rfl
  | execve =>
      apply childrenOf_update rfl
      exact fun proc => rfl
  | exit =>
      apply childrenOf_update rfl
      exact fun proc => rfl
  | fork _ => exact absurd rfl hfork
  | wait4 _ _ _ => exact absurd rfl (hwait _ _)
  | _ => rfl

theorem childrenOf_sysFork (h : Inv k) {caller : Int} {parent : Process}
    (hparent : k.processTable.get caller = some parent) (pid : Int) :
    (k.sysFork caller).2.childrenOf pid =
      if pid = caller then k.childrenOf pid ++ [k.processTable.pidAlloc.alloc.1]
      else k.childrenOf pid := by
  have hfresh := h.pids.get_alloc
  rw [sysFork_of_get hparent]
  generalize hchild : k.processTable.pidAlloc.alloc.1 = child at hfresh ⊢
  unfold childrenOf
  rw [ProcessTable.get_update, ProcessTable.get_spawn, hchild]
  by_cases hpid : pid = caller
  · subst hpid
    have hne : pid ≠ child := by
      rintro rfl
      rw [hfresh] at hparent
      cases hparent
    rw [if_neg hne, hparent, Option.map_some, Option.map_some, if_pos rfl, if_neg hne]
    exact (if_pos rfl).symm
  · rw [if_neg hpid]
    by_cases hnew : pid = child
    · subst hnew
      rw [if_pos rfl, hfresh, Option.map_some, Option.map_some, if_neg hpid, if_pos rfl]
      rfl
    · rw [if_neg hnew]
      cases k.processTable.get pid with
      | none => rfl
      | some proc =>
          rw [Option.map_some, Option.map_some, if_neg hpid, if_neg hnew]

/-- The reaped process leaves the list of the caller; it takes its own list with it. -/
theorem childrenOf_sysWait4 (h : Inv k) {caller child : Int}
    (hreap : k.reapable caller = some child) (childPid options pid : Int) :
    (k.sysWait4 caller childPid options).2.childrenOf pid =
      if pid = child then []
      else if pid = caller then (k.childrenOf pid).erase child else k.childrenOf pid := by
  obtain ⟨parent, proc, hparent, hproc, -, hppid, -⟩ := reaped_of_reapable h hreap
  rw [sysWait4_of_reapable hreap]
  unfold childrenOf
  rw [ProcessTable.get_remove hproc, hppid]
  by_cases hpid : pid = child
  · rw [if_pos hpid, if_pos hpid]
    rfl
  · rw [if_neg hpid, if_neg hpid]
    cases k.processTable.get pid with
    | none => exact (ite_self []).symm
    | some other =>
        rw [Option.map_some]
        dsimp only
        split
        · rfl
        · rfl

theorem isZombie_congr {k' : KernelState} {l : List Int} (h : ∀ c ∈ l, k'.phase c = k.phase c) :
    l.filter k'.processTable.isZombie = l.filter k.processTable.isZombie := by
  apply List.filter_congr
  intro c hc
  rw [isZombie_eq, isZombie_eq, h c hc]

theorem zombies_fork (h : FamilyInv k) (caller : Int) :
    (k.sysFork caller).2.zombies pid = k.zombies pid := by
  cases hparent : k.processTable.get caller with
  | none => rw [sysFork_of_none hparent]
  | some parent =>
      have hphase := phase_sysFork h.inv hparent
      have hold : (k.childrenOf pid).filter (k.sysFork caller).2.processTable.isZombie =
          (k.childrenOf pid).filter k.processTable.isZombie := by
        apply isZombie_congr
        intro c hc
        have hlive := h.inv.live_of_lists (lists_iff_mem_childrenOf.mpr hc)
        rw [hphase, if_neg]
        rintro rfl
        exact h.inv.pids.alloc_fresh hlive
      unfold zombies
      rw [childrenOf_sysFork h.inv hparent]
      split
      · have hnew : ¬ (k.sysFork caller).2.processTable.isZombie
            k.processTable.pidAlloc.alloc.1 = true := by
          rw [isZombie_eq, hphase, if_pos rfl]
          exact Bool.false_ne_true
        rw [List.filter_append, hold, List.filter_cons_of_neg hnew]
        exact List.append_nil _
      · exact hold

theorem filter_erase_of_head {α : Type} [DecidableEq α] {p : α → Bool} {l rest : List α} {a : α}
    (hl : l.Nodup) (h : l.filter p = a :: rest) : (l.erase a).filter p = rest := by
  have hrest : a ∉ rest := by
    have hnodup := hl.filter p
    rw [h] at hnodup
    exact (List.nodup_cons.mp hnodup).1
  rw [hl.erase_eq_filter, List.filter_comm, h, List.filter_cons_of_neg (by simp)]
  apply List.filter_eq_self.mpr
  intro b hb
  exact bne_iff_ne.mpr fun heq => hrest (heq ▸ hb)

theorem zombies_wait4 (h : FamilyInv k) {grandparent : Int}
    (hlive : k.phase pid = .live grandparent) (caller childPid options : Int) :
    (k.sysWait4 caller childPid options).2.zombies pid =
      if caller = pid then (k.zombies pid).tail else k.zombies pid := by
  cases hreap : k.reapable caller with
  | none =>
      rw [(sysWait4_of_none hreap childPid options).2]
      split
      · rename_i hcaller
        subst hcaller
        have hnil : k.zombies caller = [] := by
          rw [← List.head?_eq_none_iff, head?_zombies, hreap]
        rw [hnil]
        rfl
      · rfl
  | some child =>
      obtain ⟨hlists, hzombie⟩ := lists_of_reapable hreap
      have hne : pid ≠ child := by
        rintro rfl
        rw [isZombie_eq, hlive] at hzombie
        cases hzombie
      have hfilter : ∀ l : List Int, child ∉ l →
          l.filter (k.sysWait4 caller childPid options).2.processTable.isZombie =
            l.filter k.processTable.isZombie := by
        intro l hl
        apply isZombie_congr
        intro c hc
        rw [phase_sysWait4 h.inv hreap, if_neg]
        rintro rfl
        exact hl hc
      unfold zombies
      rw [childrenOf_sysWait4 h.inv hreap, if_neg hne]
      by_cases hcaller : caller = pid
      · subst hcaller
        have hnodup : (k.childrenOf caller).Nodup := by
          unfold childrenOf
          cases hget : k.processTable.get caller with
          | none => exact List.nodup_nil
          | some parent => exact h.inv.family.children_nodup caller parent hget
        have hhead := k.head?_zombies caller
        rw [hreap] at hhead
        obtain ⟨rest, hrest⟩ := List.head?_eq_some_iff.mp hhead
        unfold zombies at hrest
        rw [if_pos rfl, if_pos rfl, hfilter _ hnodup.not_mem_erase,
          filter_erase_of_head hnodup hrest, hrest, List.tail_cons]
      · rw [if_neg (Ne.symm hcaller), if_neg hcaller]
        apply hfilter
        intro hchild
        obtain ⟨proc, hproc, hppid⟩ := h.inv.family.hasParent hlists
        obtain ⟨other, hother, hparent⟩ :=
          h.inv.family.hasParent (lists_iff_mem_childrenOf.mpr hchild)
        rw [hproc] at hother
        cases hother
        exact hcaller (hppid.symm.trans hparent)

theorem zombies_step (h : FamilyInv k) {grandparent : Int}
    (hlive : k.phase pid = .live grandparent) {req : Request} (hreq : exits req = false) :
    (k.step req).zombies pid = if waits pid req then (k.zombies pid).tail else k.zombies pid := by
  obtain ⟨caller, call⟩ := req
  have he := effect_step h.inv ⟨caller, call⟩
  cases call with
  | fork => exact zombies_fork h caller
  | exit code => cases hreq
  | wait4 childPid options =>
      change (k.sysWait4 caller childPid options).2.zombies pid = _
      rw [zombies_wait4 h hlive]
      simp [waits]
  | _ =>
      refine zombies_congr (childrenOf_effect he ?_ ?_) fun c _ => phase_effect he ?_ ?_ ?_ c
      all_goals
        intros
        intro heq
        cases heq

theorem answer_of_waits {parent : Process} (hparent : k.processTable.get pid = some parent)
    {req : Request} (hreq : waits pid req = true) :
    k.answer req = .ok ((k.zombies pid).headD 0) := by
  obtain ⟨caller, call⟩ := req
  cases call with
  | wait4 childPid options =>
      have hcaller : caller = pid := of_decide_eq_true hreq
      subst hcaller
      change Except.ok (k.sysWait4 caller childPid options).1 = _
      rw [List.headD_eq_head?_getD, head?_zombies]
      cases hreap : k.reapable caller with
      | none =>
          have hfind : parent.children.find? k.processTable.isZombie = none := by
            simpa [reapable, hparent] using hreap
          unfold sysWait4
          simp only [hparent, hfind, Option.getD_none]
      | some child =>
          rw [sysWait4_of_reapable hreap]
          rfl
  | _ => cases hreq

theorem exits_of_exited {req : Request} {answer : Except FsError Int}
    (h : lifeEvent pid req answer = some .exited) : exits req = true := by
  obtain ⟨caller, call⟩ := req
  cases call with
  | exit code => rfl
  | _ =>
      cases answer with
      | error error => simp [lifeEvent] at h
      | ok r => simp [lifeEvent] at h

theorem live_step (h : FamilyInv k) {grandparent : Int} (hlive : k.phase pid = .live grandparent)
    {req : Request} (hreq : exits req = false) : (k.step req).phase pid = .live grandparent := by
  have hlife := lifeStep h pid req
  unfold LifeStep at hlife
  rw [hlive] at hlife
  cases hevent : lifeEvent pid req (k.answer req) with
  | none =>
      rw [hevent] at hlife
      exact (Option.some.inj hlife).symm
  | some event =>
      rw [hevent] at hlife
      cases event with
      | exited =>
          rw [exits_of_exited hevent] at hreq
          cases hreq
      | forked parent => cases hlife
      | reaped reaper => cases hlife

end Step

/-! ## Runs without an exit -/

/-- From any state that the booted kernel reaches, and until some process exits, the `wait4`
calls of a process that is no zombie reap its zombie children one after the other, in the order
of its list, and return 0 from then on, whatever all processes call in between. -/
theorem wait4_drains (reqs : List Request) {pid grandparent : Int}
    (hlive : (run step boot reqs).phase pid = .live grandparent) (more : List Request)
    (hmore : ∀ req ∈ more, exits req = false) :
    let k := run step boot reqs
    let n := more.countP (waits pid)
    Service.repliesTo (waits pid) true serve k more =
        ((k.zombies pid).take n ++ List.replicate (n - (k.zombies pid).length) 0).map .ok ∧
      (run step k more).zombies pid = (k.zombies pid).drop n := by
  have h : FamilyInv (run step boot reqs) := run_invariant familyInv_step familyInv_boot reqs
  generalize run step boot reqs = k at h hlive ⊢
  induction more generalizing k with
  | nil => simp [Service.repliesTo]
  | cons req more ih =>
      obtain ⟨hreq, hrest⟩ := List.forall_mem_cons.mp hmore
      obtain ⟨hreplies, hend⟩ := ih hrest (k.step req) (familyInv_step k req h)
        (live_step h hlive hreq)
      have hserve : (serve k req).2 = k.step req := rfl
      rw [zombies_step h hlive hreq] at hreplies hend
      dsimp only
      rw [Service.repliesTo, run_cons, hserve, hreplies, hend, List.countP_cons]
      by_cases hwaits : waits pid req = true
      · obtain ⟨parent, hparent⟩ : ∃ parent, k.processTable.get pid = some parent := by
          cases hget : k.processTable.get pid with
          | none =>
              rw [phase_of_none hget] at hlive
              cases hlive
          | some parent => exact ⟨parent, rfl⟩
        have hanswer : (serve k req).1 = .ok ((k.zombies pid).headD 0) :=
          answer_of_waits hparent hwaits
        rw [if_pos hwaits, if_pos hwaits, if_pos hwaits, hanswer]
        cases k.zombies pid with
        | nil => simp [List.replicate_succ]
        | cons child rest => simp
      · rw [if_neg hwaits, if_neg hwaits, if_neg hwaits]
        exact ⟨rfl, rfl⟩

/-- Process 4 exits before 3, and 3 is reaped first. -/
theorem wait4_drains_init :
    let k := run step boot [⟨2, .fork⟩, ⟨2, .fork⟩, ⟨2, .fork⟩, ⟨4, .exit 1⟩, ⟨3, .exit 0⟩]
    Service.repliesTo (waits 2) true serve k
      [⟨2, .wait4 (-1) 0⟩, ⟨5, .fork⟩, ⟨2, .wait4 (-1) 0⟩, ⟨2, .wait4 5 0⟩] =
        [.ok 3, .ok 4, .ok 0] := by
  intro k
  have hlive : k.phase 2 = .live 0 := by decide +kernel
  have hzombies : k.zombies 2 = [3, 4] := by decide +kernel
  have h := wait4_drains [⟨2, .fork⟩, ⟨2, .fork⟩, ⟨2, .fork⟩, ⟨4, .exit 1⟩, ⟨3, .exit 0⟩] hlive
    [⟨2, .wait4 (-1) 0⟩, ⟨5, .fork⟩, ⟨2, .wait4 (-1) 0⟩, ⟨2, .wait4 5 0⟩] (by decide)
  rw [h.1, hzombies]
  rfl

end ComputeKernel.Kernel.KernelState
