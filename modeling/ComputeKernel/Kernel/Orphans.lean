import ComputeKernel.Kernel.Family

/-!
# Orphans

Every process can be reaped by a live parent until a process is reaped that still has
children.  They are not given another parent, and from then on nobody can reap them.
-/

namespace ComputeKernel.Kernel.KernelState

open Lib Lib.Run Fs Memory Tasks Vfs

def ReapsChildless (k : KernelState) (req : Request) : Prop :=
  match req.call with
  | .wait4 _ _ => ∀ child, k.reapable req.pid = some child →
      ∀ other, ¬ k.processTable.Lists child other
  | _ => True

structure FamilyInv (k : KernelState) : Prop where
  inv : Inv k
  two_le_child : ∀ pid child, k.processTable.Lists pid child → 2 ≤ child
  child_ne : ∀ pid child, k.processTable.Lists pid child → child ≠ pid

theorem familyInv_boot : FamilyInv boot where
  inv := inv_boot
  two_le_child := by
    intro pid child h
    have := boot_lists h
    omega
  child_ne := by
    intro pid child h
    have := boot_lists h
    omega

theorem familyInv_step (k : KernelState) (req : Request) (h : FamilyInv k) :
    FamilyInv (k.step req) where
  inv := inv_step k req h.inv
  two_le_child := by
    intro pid child hlists
    rcases lists_effect h.inv (effect_step h.inv req) hlists with hold | ⟨-, -, -, -, hnew⟩
    · exact h.two_le_child pid child hold
    · rw [hnew]
      exact h.inv.pids.two_le_alloc
  child_ne := by
    intro pid child hlists
    rcases lists_effect h.inv (effect_step h.inv req) hlists with hold | ⟨-, -, hpid, hlive, hnew⟩
    · exact h.child_ne pid child hold
    · rw [hnew, hpid]
      intro heq
      exact h.inv.pids.alloc_fresh (heq ▸ hlive)

theorem parented_boot : boot.processTable.Parented := by
  have hinit : ProcessTable.init.Parented := by
    rintro child pid ⟨proc, hproc, -⟩ hne
    exact absurd (ProcessTable.init_eq hproc).1 hne
  apply ProcessTable.Parented.update _ Process.keepsFamily_start
  exact hinit.spawn ProcessTable.PidsOk.init (by decide) _ _ _ _

theorem parented_effect {k k' : KernelState} {pid : Int} {call : Syscall}
    {result : Except FsError Int} (h : Inv k) (hparented : k.processTable.Parented)
    (he : Effect k pid call result k')
    (hcall : ∀ childPid options, call ≠ .wait4 childPid options) :
    k'.processTable.Parented := by
  cases he with
  | openat ref fs inode _ => exact hparented.update (Process.keepsFamily_setFd _ _ _) _
  | close _ _ => exact hparented.update (Process.keepsFamily_setFdt _) _
  | execve => exact hparented.update (Process.keepsFamily_execute _) _
  | exit => exact hparented.update (Process.keepsFamily_terminate _) _
  | fork hparent =>
      have hlive := ProcessTable.mem_table_iff.mpr ⟨_, hparent⟩
      exact (hparented.spawn h.pids hlive _ _ _ _).update (Process.keepsFamily_setCwd _) _
  | wait4 _ _ _ => exact absurd rfl (hcall _ _)
  | _ => exact hparented

theorem parented_step (k : KernelState) (req : Request) (h : FamilyInv k)
    (hparented : k.processTable.Parented) (hreq : ReapsChildless k req) :
    (k.step req).processTable.Parented := by
  by_cases hwait : ∃ childPid options, req.call = .wait4 childPid options
  · obtain ⟨pid, call⟩ := req
    obtain ⟨childPid, options, rfl⟩ := hwait
    change (k.sysWait4 pid childPid options).2.processTable.Parented
    cases hreap : k.reapable pid with
    | none =>
        rw [(sysWait4_of_none hreap childPid options).2]
        exact hparented
    | some child =>
        have hlive := h.inv.live_of_lists (lists_of_reapable hreap).1
        rw [sysWait4_of_reapable hreap]
        exact hparented.remove h.inv.family hlive (hreq child hreap)
  · apply parented_effect h.inv hparented (effect_step h.inv req)
    intro childPid options heq
    exact hwait ⟨childPid, options, heq⟩

theorem not_parented_step (k : KernelState) (req : Request) (h : FamilyInv k)
    (hreq : ¬ ReapsChildless k req) : ¬ (k.step req).processTable.Parented := by
  obtain ⟨pid, call⟩ := req
  cases call with
  | wait4 childPid options =>
      obtain ⟨child, hreap, other, hlists⟩ : ∃ child, k.reapable pid = some child ∧
          ∃ other, k.processTable.Lists child other := by
        simpa [ReapsChildless] using hreq
      have hlive := h.inv.live_of_lists (lists_of_reapable hreap).1
      have hpos := h.two_le_child child other hlists
      change ¬ (k.sysWait4 pid childPid options).2.processTable.Parented
      rw [sysWait4_of_reapable hreap]
      apply ProcessTable.not_parented_remove h.inv.family hlive hlists
      · exact h.child_ne child other hlists
      · omega
  | _ => exact absurd trivial hreq

/-- Every live process other than the idle process has a live parent that lists it,
throughout a run, exactly when no request reaps a process that has children. -/
theorem always_parented_iff (reqs : List Request) :
    Always step (fun k => k.processTable.Parented) boot reqs ↔
      Guarded step ReapsChildless boot reqs :=
  always_iff_guarded_of_invariant familyInv_step parented_step
    (fun k req h _ => not_parented_step k req h) familyInv_boot parented_boot

/-- Process 3 forks 4 and is reaped: 4 is left with a parent that is gone. -/
theorem orphan_left :
    let reqs : List Request := [⟨2, .fork⟩, ⟨3, .fork⟩, ⟨3, .exit 0⟩, ⟨2, .wait4 (-1) 0⟩]
    let k := run step boot reqs
    k.processTable.HasParent 4 3 ∧ 3 ∉ k.processTable.table ∧
    ¬ Always step (fun k => k.processTable.Parented) boot reqs := by
  intro reqs k
  have hparent : k.processTable.HasParent 4 3 := ⟨_, rfl, rfl⟩
  have hgone : 3 ∉ k.processTable.table := by decide +kernel
  refine ⟨hparent, hgone, ?_⟩
  intro h
  have hend := always_iff_prefixes.mp h reqs (List.prefix_refl reqs)
  exact hgone (hend 4 3 hparent (by decide)).mem

/-! ## Left for good -/

def Orphan (child : Int) (k : KernelState) : Prop :=
  child ∈ k.processTable.table ∧ ∀ pid, ¬ k.processTable.Lists pid child

theorem live_effect {k k' : KernelState} {pid other : Int} {call : Syscall}
    {result : Except FsError Int} (h : Inv k) (he : Effect k pid call result k')
    (hlive : other ∈ k.processTable.table) (hlists : ∀ p, ¬ k.processTable.Lists p other) :
    other ∈ k'.processTable.table := by
  cases he with
  | openat ref fs inode _ => exact Dict.mem_modify.mpr hlive
  | close _ _ => exact Dict.mem_modify.mpr hlive
  | execve => exact Dict.mem_modify.mpr hlive
  | exit => exact Dict.mem_modify.mpr hlive
  | fork _ =>
      apply Dict.mem_modify.mpr
      rw [ProcessTable.mem_spawn]
      exact Or.inr hlive
  | wait4 hparent hchild _ =>
      obtain ⟨proc, hproc, -⟩ := h.family.listed _ _ hparent _ hchild
      rw [ProcessTable.mem_remove hproc]
      refine ⟨?_, hlive⟩
      rintro rfl
      exact hlists _ ⟨_, hparent, hchild⟩
  | _ => exact hlive

theorem orphan_step {child : Int} (k : KernelState) (req : Request) (h : Inv k)
    (horphan : Orphan child k) : Orphan child (k.step req) := by
  have he := effect_step h req
  refine ⟨live_effect h he horphan.1 horphan.2, ?_⟩
  intro pid hlists
  rcases lists_effect h he hlists with hold | ⟨-, -, -, -, hnew⟩
  · exact horphan.2 pid hold
  · exact h.pids.alloc_fresh (hnew ▸ horphan.1)

theorem orphan_forever {child : Int} {reqs : List Request}
    (h : Orphan child (run step boot reqs)) (more : List Request) :
    Orphan child (run step boot (reqs ++ more)) := by
  rw [run_append]
  exact run_keeps inv_step orphan_step (inv_run reqs) h more

end ComputeKernel.Kernel.KernelState
