import ComputeKernel.Kernel.Isolation
import ComputeKernel.Kernel.Run
import ComputeKernel.Tasks.Family

/-!
# Forking and reaping

A process is on the list of the process that forked it until it is reaped, although
process numbers are used again.  Only the reaping of a process that still has children
leaves processes that nobody can reap.
-/

namespace ComputeKernel.Kernel.KernelState

open Lib Lib.Run Fs Memory Tasks Vfs

def reapable (k : KernelState) (pid : Int) : Option Int :=
  (k.processTable.get pid).bind fun parent => parent.children.find? k.processTable.isZombie

theorem sysWait4_of_reapable {k : KernelState} {pid child : Int}
    (h : k.reapable pid = some child) (childPid options : Int) :
    k.sysWait4 pid childPid options =
      (child, { k with processTable := k.processTable.remove child }) := by
  obtain ⟨parent, hparent, hfind⟩ := Option.bind_eq_some_iff.mp h
  unfold sysWait4
  simp only [hparent, hfind]

theorem sysWait4_of_none {k : KernelState} {pid : Int} (h : k.reapable pid = none)
    (childPid options : Int) :
    (k.sysWait4 pid childPid options).1 ≤ 0 ∧ (k.sysWait4 pid childPid options).2 = k := by
  unfold sysWait4
  cases hparent : k.processTable.get pid with
  | none =>
      have hinval : -EINVAL ≤ 0 := by decide
      exact ⟨hinval, rfl⟩
  | some parent =>
      have hfind : parent.children.find? k.processTable.isZombie = none := by
        simpa [reapable, hparent] using h
      simp only [hfind]
      exact ⟨Int.le_refl 0, trivial⟩

theorem lists_of_reapable {k : KernelState} {pid child : Int}
    (h : k.reapable pid = some child) :
    k.processTable.Lists pid child ∧ k.processTable.isZombie child = true := by
  obtain ⟨parent, hparent, hfind⟩ := Option.bind_eq_some_iff.mp h
  exact ⟨⟨parent, hparent, List.mem_of_find?_eq_some hfind⟩, List.find?_some hfind⟩

theorem not_zombie_of_reapable {k : KernelState} {pid child : Int} (h : k.reapable pid = none)
    (hlists : k.processTable.Lists pid child) : ¬ k.processTable.isZombie child = true := by
  obtain ⟨proc, hproc, hchild⟩ := hlists
  rw [reapable, hproc] at h
  exact List.find?_eq_none.mp h child hchild

theorem reapable_of_answer {k : KernelState} {pid child childPid options : Int}
    (h : k.answer ⟨pid, .wait4 childPid options⟩ = .ok child) (hpos : 0 < child) :
    k.reapable pid = some child := by
  have hresult : (k.sysWait4 pid childPid options).1 = child := Except.ok.inj h
  cases hreap : k.reapable pid with
  | none =>
      have := (sysWait4_of_none hreap childPid options).1
      omega
  | some other =>
      rw [sysWait4_of_reapable hreap] at hresult
      exact congrArg some hresult

section Effect

variable {k k' : KernelState} {pid : Int} {call : Syscall} {result : Except FsError Int}

theorem lists_effect (h : Inv k) (he : Effect k pid call result k') {parent child : Int}
    (hlists : k'.processTable.Lists parent child) :
    k.processTable.Lists parent child ∨
      (call = .fork ∧ result = .ok child ∧ parent = pid ∧ pid ∈ k.processTable.table ∧
        child = k.processTable.pidAlloc.alloc.1) := by
  cases he with
  | openat ref fs inode _ =>
      exact Or.inl ((ProcessTable.lists_update_iff (Process.keepsFamily_setFd _ _ _) _ _ _ _).mp
        hlists)
  | close _ _ =>
      exact Or.inl ((ProcessTable.lists_update_iff (Process.keepsFamily_setFdt _) _ _ _ _).mp
        hlists)
  | execve =>
      exact Or.inl ((ProcessTable.lists_update_iff (Process.keepsFamily_execute _) _ _ _ _).mp
        hlists)
  | exit =>
      exact Or.inl ((ProcessTable.lists_update_iff (Process.keepsFamily_terminate _) _ _ _ _).mp
        hlists)
  | fork hparent =>
      have hlive := ProcessTable.mem_table_iff.mpr ⟨_, hparent⟩
      have hspawned :=
        (ProcessTable.lists_update_iff (Process.keepsFamily_setCwd _) _ _ _ _).mp hlists
      rw [ProcessTable.lists_spawn_iff h.pids hlive] at hspawned
      rcases hspawned with hold | ⟨hpid, hnew⟩
      · exact Or.inl hold
      · exact Or.inr ⟨rfl, by rw [hnew], hpid, hlive, hnew⟩
  | wait4 hparent hchild _ =>
      have hgone : _ ∈ k.processTable.table := ProcessTable.exists_hasParent.mpr
        ⟨_, h.family.hasParent ⟨_, hparent, hchild⟩⟩
      exact Or.inl ((ProcessTable.lists_remove_iff h.family hgone _ _).mp hlists).2.2
  | _ => exact Or.inl hlists

end Effect

theorem Inv.live_of_lists {k : KernelState} (h : Inv k) {pid child : Int}
    (hlists : k.processTable.Lists pid child) : child ∈ k.processTable.table :=
  ProcessTable.exists_hasParent.mpr ⟨pid, h.family.hasParent hlists⟩

/-! ## Who forked a child -/

def BothLive (pid other : Int) (k : KernelState) : Prop :=
  pid ∈ k.processTable.table ∧ other ∈ k.processTable.table

/-- Some request of the run is the `fork` of `pid` that made `child`, and since then both
have been live in every state, hence the same processes. -/
def Forked (pid child : Int) (reqs : List Request) : Prop :=
  ∃ pre post, reqs = pre ++ ⟨pid, .fork⟩ :: post ∧
    (run step boot pre).answer ⟨pid, .fork⟩ = .ok child ∧
    Always step (BothLive pid child) ((run step boot pre).step ⟨pid, .fork⟩) post

/-- The init process, which the boot code makes a child of the idle process, and neither
has been reaped. -/
def BootChild (pid child : Int) (reqs : List Request) : Prop :=
  pid = 0 ∧ child = 2 ∧ Always step (BothLive pid child) boot reqs

theorem boot_lists {pid child : Int} (h : boot.processTable.Lists pid child) :
    pid = 0 ∧ child = 2 := by
  have hspawned :
      (ProcessTable.init.spawn "init".toList 0 0 0 "/sbin/init".toList).2.Lists pid child :=
    (ProcessTable.lists_update_iff Process.keepsFamily_start _ _ _ _).mp h
  rw [ProcessTable.lists_spawn_iff ProcessTable.PidsOk.init (by decide)] at hspawned
  rcases hspawned with ⟨proc, hproc, hchild⟩ | hnew
  · rw [(ProcessTable.init_eq hproc).2] at hchild
    cases hchild
  · exact hnew

theorem forked_of_lists (reqs : List Request) {pid child : Int}
    (h : (run step boot reqs).processTable.Lists pid child) :
    Forked pid child reqs ∨ BootChild pid child reqs := by
  induction reqs using List.reverseRecOn with
  | nil =>
      obtain ⟨rfl, rfl⟩ := boot_lists h
      exact Or.inr ⟨rfl, rfl, h.mem, inv_boot.live_of_lists h⟩
  | append_singleton reqs req ih =>
      rw [run_concat] at h
      have hinv := inv_run reqs
      have hlast : BothLive pid child (step (run step boot reqs) req) :=
        ⟨h.mem, (inv_step _ req hinv).live_of_lists h⟩
      rcases lists_effect hinv (effect_step hinv req) h with hold | ⟨hcall, hanswer, hpid, -, -⟩
      · rcases ih hold with ⟨pre, post, hreqs, hfork, hlive⟩ | ⟨hpid, hchild, hlive⟩
        · left
          refine ⟨pre, post ++ [req], ?_, hfork, always_concat hlive ?_⟩
          · rw [hreqs, List.append_assoc, List.cons_append]
          · rw [hreqs, run_append] at hlast
            exact hlast
        · exact Or.inr ⟨hpid, hchild, always_concat hlive hlast⟩
      · left
        obtain ⟨reqPid, reqCall⟩ := req
        obtain rfl : pid = reqPid := hpid
        obtain rfl : reqCall = .fork := hcall
        exact ⟨reqs, [], rfl, hanswer, hlast⟩

theorem reaped_of_reapable {k : KernelState} (h : Inv k) {pid child : Int}
    (hreap : k.reapable pid = some child) :
    Reaped pid child k { k with processTable := k.processTable.remove child } := by
  obtain ⟨⟨parent, hparent, hchild⟩, hzombie⟩ := lists_of_reapable hreap
  obtain ⟨proc, hproc, hppid⟩ := h.family.listed pid parent hparent child hchild
  refine ⟨parent, proc, hparent, hproc, hchild, hppid, ?_, ?_⟩
  · simpa [ProcessTable.isZombie, hproc] using hzombie
  · change (k.processTable.remove child).get child = none
    rw [ProcessTable.get_remove hproc, if_pos rfl]
    rfl

theorem reaped_step {k : KernelState} (h : Inv k) {pid child childPid options : Int}
    (hanswer : k.answer ⟨pid, .wait4 childPid options⟩ = .ok child) (hpos : 0 < child) :
    Reaped pid child k (k.step ⟨pid, .wait4 childPid options⟩) := by
  have hreap := reapable_of_answer hanswer hpos
  change Reaped pid child k (k.sysWait4 pid childPid options).2
  rw [sysWait4_of_reapable hreap]
  exact reaped_of_reapable h hreap

/-- In every run, children lists name live processes with the right parent, each once,
and `wait4` reaps zombie children that the caller forked itself; the one exception is
the init process, which the idle process has from booting. -/
theorem wait4_reaps_own_child (reqs : List Request) :
    let k := run step boot reqs
    (∀ pid proc, k.processTable.get pid = some proc → proc.pid = pid) ∧
    k.processTable.FamilyOk ∧
    ∀ pid child childPid options,
      k.answer ⟨pid, .wait4 childPid options⟩ = .ok child → 0 < child →
      Reaped pid child k (k.step ⟨pid, .wait4 childPid options⟩) ∧
      (Forked pid child reqs ∨ BootChild pid child reqs) := by
  intro k
  have hinv : Inv k := inv_run reqs
  refine ⟨hinv.pids.keyed, hinv.family, ?_⟩
  intro pid child childPid options hanswer hpos
  have hlists := (lists_of_reapable (reapable_of_answer hanswer hpos)).1
  exact ⟨reaped_step hinv hanswer hpos, forked_of_lists reqs hlists⟩

/-- The idle process reaps the init process without ever forking. -/
theorem idle_reaps_init :
    let reqs : List Request := [⟨2, .exit 0⟩]
    (run step boot reqs).answer ⟨0, .wait4 (-1) 0⟩ = .ok 2 ∧ ¬ Forked 0 2 reqs := by
  intro reqs
  refine ⟨rfl, ?_⟩
  rintro ⟨pre, post, hreqs, -⟩
  have hmem : (⟨0, .fork⟩ : Request) ∈ reqs := by
    rw [hreqs]
    simp
  revert hmem
  decide

end ComputeKernel.Kernel.KernelState
