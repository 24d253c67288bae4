import ComputeKernel.Tasks.ProcessTable

/-!
# Parents and children

Who has whom in the children list and whose parent is whom, and how spawning and
removing processes changes the two relations.  They agree as long as no process is
removed that still has children.
-/

namespace ComputeKernel.Tasks.ProcessTable

open Lib

def Lists (pt : ProcessTable) (pid child : Int) : Prop :=
  ∃ proc, pt.get pid = some proc ∧ child ∈ proc.children

def HasParent (pt : ProcessTable) (child pid : Int) : Prop :=
  ∃ proc, pt.get child = some proc ∧ proc.ppid = pid

def Parented (pt : ProcessTable) : Prop :=
  ∀ child pid, pt.HasParent child pid → child ≠ 0 → pt.Lists pid child

theorem exists_hasParent {pt : ProcessTable} {child : Int} :
    child ∈ pt.table ↔ ∃ pid, pt.HasParent child pid := by
  rw [mem_table_iff]
  constructor
  · rintro ⟨proc, hproc⟩
    exact ⟨proc.ppid, proc, hproc, rfl⟩
  · rintro ⟨pid, proc, hproc, -⟩
    exact ⟨proc, hproc⟩

theorem Lists.mem {pt : ProcessTable} {pid child : Int} (h : pt.Lists pid child) :
    pid ∈ pt.table := by
  obtain ⟨proc, hproc, -⟩ := h
  exact mem_table_iff.mpr ⟨proc, hproc⟩

theorem FamilyOk.hasParent {pt : ProcessTable} (h : FamilyOk pt) {pid child : Int}
    (hlists : pt.Lists pid child) : pt.HasParent child pid := by
  obtain ⟨proc, hproc, hchild⟩ := hlists
  exact h.listed pid proc hproc child hchild

/-! ## Spawning -/

section Spawn

variable {pt : ProcessTable} {name : Str} {ppid uid gid : Int} {cmdline : Str}

theorem lists_spawn_iff (h : PidsOk pt) (hparent : ppid ∈ pt.table) (pid child : Int) :
    (pt.spawn name ppid uid gid cmdline).2.Lists pid child ↔
      pt.Lists pid child ∨ (pid = ppid ∧ child = pt.pidAlloc.alloc.1) := by
  have hne : ppid ≠ pt.pidAlloc.alloc.1 := by
    intro heq
    exact h.alloc_fresh (heq ▸ hparent)
  unfold Lists
  rw [get_spawn]
  by_cases hnew : pid = pt.pidAlloc.alloc.1
  · -- the new process has no children and is nobody else's number
    have hpid : pid ≠ ppid := hnew ▸ hne.symm
    have hold : pt.get pid = none := hnew ▸ h.get_alloc
    have hchildren : (pt.spawn name ppid uid gid cmdline).1.children = [] := rfl
    simp [if_pos hnew, hpid, hold, hchildren]
  · rw [if_neg hnew]
    obtain ⟨parent, hget⟩ := mem_table_iff.mp hparent
    by_cases hpid : pid = ppid
    · simp [hpid, hget, Process.addChild]
    · simp [hpid]

theorem hasParent_spawn_iff (h : PidsOk pt) (child pid : Int) :
    (pt.spawn name ppid uid gid cmdline).2.HasParent child pid ↔
      pt.HasParent child pid ∨ (child = pt.pidAlloc.alloc.1 ∧ pid = ppid) := by
  unfold HasParent
  rw [get_spawn]
  by_cases hnew : child = pt.pidAlloc.alloc.1
  · have hold : pt.get child = none := hnew ▸ h.get_alloc
    have hparent : (pt.spawn name ppid uid gid cmdline).1.ppid = ppid := rfl
    simp only [hnew, if_true, Option.map_some, Option.some.injEq, exists_eq_left']
    rw [FamilyOk.ppid_addChild_if, hparent, ← hnew, hold]
    simp [eq_comm]
  · simp only [hnew, if_false, false_and, or_false, Option.map_eq_some_iff]
    constructor
    · rintro ⟨proc, ⟨old, hold, rfl⟩, hppid⟩
      rw [FamilyOk.ppid_addChild_if] at hppid
      exact ⟨old, hold, hppid⟩
    · rintro ⟨old, hold, hppid⟩
      refine ⟨_, ⟨old, hold, rfl⟩, ?_⟩
      rw [FamilyOk.ppid_addChild_if]
      exact hppid

end Spawn

/-! ## Removing and assigning -/

theorem lists_remove_iff {pt : ProcessTable} (h : FamilyOk pt) {removed : Int}
    (hremoved : removed ∈ pt.table) (pid child : Int) :
    (pt.remove removed).Lists pid child ↔
      pid ≠ removed ∧ child ≠ removed ∧ pt.Lists pid child := by
  obtain ⟨gone, hgone⟩ := mem_table_iff.mp hremoved
  unfold Lists
  rw [get_remove hgone]
  by_cases hpid : pid = removed
  · simp [hpid]
  · simp only [hpid, if_false, ne_eq, not_false_eq_true, true_and, Option.map_eq_some_iff]
    constructor
    · rintro ⟨proc, ⟨old, hold, rfl⟩, hchild⟩
      have hnodup := h.children_nodup pid old hold
      split at hchild
      · rw [Process.removeChild, hnodup.mem_erase_iff] at hchild
        exact ⟨hchild.1, old, hold, hchild.2⟩
      · rename_i hother
        refine ⟨?_, old, hold, hchild⟩
        intro heq
        obtain ⟨proc, hproc, hppid⟩ := h.listed pid old hold child hchild
        rw [heq, hgone] at hproc
        cases hproc
        exact hother hppid.symm
    · rintro ⟨hne, old, hold, hchild⟩
      refine ⟨_, ⟨old, hold, rfl⟩, ?_⟩
      split
      · rw [Process.removeChild, List.mem_erase_of_ne hne]
        exact hchild
      · exact hchild

theorem hasParent_remove_iff {pt : ProcessTable} {removed : Int} (hremoved : removed ∈ pt.table)
    (child pid : Int) :
    (pt.remove removed).HasParent child pid ↔ child ≠ removed ∧ pt.HasParent child pid := by
  obtain ⟨gone, hgone⟩ := mem_table_iff.mp hremoved
  unfold HasParent
  rw [get_remove hgone]
  by_cases hchild : child = removed
  · simp [hchild]
  · have hppid : ∀ old : Process,
        (if child = gone.ppid then old.removeChild removed else old).ppid = old.ppid := by
      intro old
      split
      · rfl
      · rfl
    simp only [hchild, if_false, ne_eq, not_false_eq_true, true_and, Option.map_eq_some_iff]
    constructor
    · rintro ⟨proc, ⟨old, hold, rfl⟩, hparent⟩
      exact ⟨old, hold, (hppid old).symm.trans hparent⟩
    · rintro ⟨old, hold, hparent⟩
      exact ⟨_, ⟨old, hold, rfl⟩, (hppid old).trans hparent⟩

theorem exists_get_update_iff {f : Process → Process} {p : Process → Prop}
    (hp : ∀ proc, p (f proc) ↔ p proc) (pt : ProcessTable) (updated pid : Int) :
    (∃ proc, (pt.update updated f).get pid = some proc ∧ p proc) ↔
      ∃ proc, pt.get pid = some proc ∧ p proc := by
  have hsame : ∀ old : Process, p (if pid = updated then f old else old) ↔ p old := by
    intro old
    split
    · exact hp old
    · rfl
  rw [get_update]
  simp only [Option.map_eq_some_iff]
  constructor
  · rintro ⟨proc, ⟨old, hold, rfl⟩, hproc⟩
    exact ⟨old, hold, (hsame old).mp hproc⟩
  · rintro ⟨old, hold, hproc⟩
    exact ⟨_, ⟨old, hold, rfl⟩, (hsame old).mpr hproc⟩

theorem lists_update_iff {f : Process → Process} (hf : Process.KeepsFamily f)
    (pt : ProcessTable) (updated pid child : Int) :
    (pt.update updated f).Lists pid child ↔ pt.Lists pid child := by
  apply exists_get_update_iff
  intro proc
  rw [hf.children]

theorem hasParent_update_iff {f : Process → Process} (hf : Process.KeepsFamily f)
    (pt : ProcessTable) (updated child pid : Int) :
    (pt.update updated f).HasParent child pid ↔ pt.HasParent child pid := by
  apply exists_get_update_iff
  intro proc
  rw [hf.ppid]

/-! ## Living parents -/

namespace Parented

variable {pt : ProcessTable}

theorem spawn (h : Parented pt) (hpids : PidsOk pt) {ppid : Int} (hparent : ppid ∈ pt.table)
    (name : Str) (uid gid : Int) (cmdline : Str) :
    Parented (pt.spawn name ppid uid gid cmdline).2 := by
  intro child pid hchild hne
  rw [lists_spawn_iff hpids hparent]
  rcases (hasParent_spawn_iff hpids child pid).mp hchild with hold | ⟨hnew, hpid⟩
  · exact Or.inl (h child pid hold hne)
  · exact Or.inr ⟨hpid, hnew⟩

theorem update (h : Parented pt) {f : Process → Process} (hf : Process.KeepsFamily f)
    (updated : Int) : Parented (pt.update updated f) := by
  intro child pid hchild hne
  rw [lists_update_iff hf]
  exact h child pid ((hasParent_update_iff hf _ _ _ _).mp hchild) hne

theorem remove (h : Parented pt) (hfamily : FamilyOk pt) {removed : Int}
    (hremoved : removed ∈ pt.table) (hchildless : ∀ child, ¬ pt.Lists removed child) :
    Parented (pt.remove removed) := by
  intro child pid hchild hne
  obtain ⟨hkept, hparent⟩ := (hasParent_remove_iff hremoved child pid).mp hchild
  have hlists := h child pid hparent hne
  rw [lists_remove_iff hfamily hremoved]
  refine ⟨?_, hkept, hlists⟩
  intro heq
  exact hchildless child (heq ▸ hlists)

end Parented

theorem not_parented_remove {pt : ProcessTable} (hfamily : FamilyOk pt) {removed child : Int}
    (hremoved : removed ∈ pt.table) (hlists : pt.Lists removed child) (hne : child ≠ removed)
    (hzero : child ≠ 0) : ¬ Parented (pt.remove removed) := by
  intro h
  have hparent := (hasParent_remove_iff hremoved child removed).mpr
    ⟨hne, hfamily.hasParent hlists⟩
  have hlisted := h child removed hparent hzero
  rw [lists_remove_iff hfamily hremoved] at hlisted
  exact hlisted.1 rfl

end ComputeKernel.Tasks.ProcessTable
