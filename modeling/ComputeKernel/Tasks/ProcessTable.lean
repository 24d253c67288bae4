import ComputeKernel.Tasks.Process

/-!
# Process table invariants

Process numbers are partitioned between the live processes and the free list of
the allocator, and a children list names live processes with the right parent.
The second part lets a process number be reused: a stale number in some children
list would make an unrelated process reapable.
-/

namespace ComputeKernel.Tasks

open Lib

theorem FileDescriptorTable.mem_of_mem_close {fdt : FileDescriptorTable} {fd other : Int}
    (h : other ∈ (fdt.close fd).2.table) : other ∈ fdt.table := by
  by_cases hfd : fd ∈ fdt.table
  · rw [FileDescriptorTable.close_of_mem hfd] at h
    exact (Dict.mem_erase.mp h).2
  · rw [FileDescriptorTable.close_of_not_mem hfd] at h
    exact h

namespace Process

structure KeepsFamily (f : Process → Process) : Prop where
  pid : ∀ proc, (f proc).pid = proc.pid
  ppid : ∀ proc, (f proc).ppid = proc.ppid
  children : ∀ proc, (f proc).children = proc.children

theorem keepsFamily_setFd (fd : Int) (path flags : Str) :
    KeepsFamily fun proc => proc.setFd fd path flags :=
  ⟨fun _ => rfl, fun _ => rfl, fun _ => rfl⟩

theorem keepsFamily_setFdt (fdt : FileDescriptorTable) :
    KeepsFamily fun proc => proc.setFdt fdt :=
  ⟨fun _ => rfl, fun _ => rfl, fun _ => rfl⟩

theorem keepsFamily_setCwd (cwd : Str) : KeepsFamily fun proc => proc.setCwd cwd :=
  ⟨fun _ => rfl, fun _ => rfl, fun _ => rfl⟩

theorem keepsFamily_execute (path : Str) :
    KeepsFamily fun proc => proc.execute path :=
  ⟨fun _ => rfl, fun _ => rfl, fun _ => rfl⟩

theorem keepsFamily_terminate (code : Int) :
    KeepsFamily fun proc => proc.terminate code :=
  ⟨fun _ => rfl, fun _ => rfl, fun _ => rfl⟩

theorem keepsFamily_start : KeepsFamily fun proc => proc.start :=
  ⟨fun _ => rfl, fun _ => rfl, fun _ => rfl⟩

end Process

namespace ProcessTable

/-- The live processes other than the idle process and the free list split the
numbers handed out so far. -/
structure PidsOk (pt : ProcessTable) : Prop where
  keyed : ∀ pid proc, pt.get pid = some proc → proc.pid = pid
  handedOut : ∀ pid, 2 ≤ pid ∧ pid < pt.pidAlloc.nextPid ↔
    (pid ∈ pt.table ∧ pid ≠ 0) ∨ pid ∈ pt.pidAlloc.freePids
  exclusive : ∀ pid ∈ pt.pidAlloc.freePids, pid ∉ pt.table
  freePids_nodup : pt.pidAlloc.freePids.Nodup
  two_le_nextPid : 2 ≤ pt.pidAlloc.nextPid

/-- Children lists name live children, each of them once. -/
structure FamilyOk (pt : ProcessTable) : Prop where
  listed : ∀ pid proc, pt.get pid = some proc → ∀ c ∈ proc.children,
    ∃ child, pt.get c = some child ∧ child.ppid = pid
  children_nodup : ∀ pid proc, pt.get pid = some proc → proc.children.Nodup

/-! ## What the operations do to one entry -/

theorem init_eq {pid : Int} {proc : Process} (h : init.get pid = some proc) :
    pid = 0 ∧ proc = { pid := 0, ppid := 0, name := "swapper/0".toList, state := .runnable } := by
  rw [get, init, Dict.get?_set] at h
  split at h
  · rename_i hzero
    exact ⟨hzero, (Option.some.inj h).symm⟩
  · cases h

theorem mem_table_iff {pt : ProcessTable} {pid : Int} :
    pid ∈ pt.table ↔ ∃ proc, pt.get pid = some proc :=
  Dict.mem_iff_exists

theorem spawn_table (pt : ProcessTable) (name : Str) (ppid uid gid : Int) (cmdline : Str) :
    (pt.spawn name ppid uid gid cmdline).2.table =
      (pt.table.set pt.pidAlloc.alloc.1 (pt.spawn name ppid uid gid cmdline).1).modify ppid
        fun parent => parent.addChild pt.pidAlloc.alloc.1 :=
  rfl

theorem get_spawn (pt : ProcessTable) (name : Str) (ppid uid gid : Int) (cmdline : Str)
    (pid : Int) :
    (pt.spawn name ppid uid gid cmdline).2.get pid =
      (if pid = pt.pidAlloc.alloc.1 then some (pt.spawn name ppid uid gid cmdline).1
        else pt.get pid).map fun proc =>
          if pid = ppid then proc.addChild pt.pidAlloc.alloc.1 else proc := by
  rw [get, spawn_table, Dict.get?_modify_eq_map, Dict.get?_set]
  rfl

theorem mem_spawn (pt : ProcessTable) (name : Str) (ppid uid gid : Int) (cmdline : Str)
    (pid : Int) :
    pid ∈ (pt.spawn name ppid uid gid cmdline).2.table ↔
      pid = pt.pidAlloc.alloc.1 ∨ pid ∈ pt.table := by
  rw [spawn_table, Dict.mem_modify, Dict.mem_set]

theorem remove_of_none {pt : ProcessTable} {pid : Int} (h : pt.get pid = none) :
    pt.remove pid = pt := by
  have h : pt.table.get? pid = none := h
  simp only [remove, h]

theorem get_remove {pt : ProcessTable} {pid : Int} {proc : Process}
    (h : pt.get pid = some proc) (other : Int) :
    (pt.remove pid).get other =
      (if other = pid then none else pt.get other).map fun parent =>
        if other = proc.ppid then parent.removeChild pid else parent := by
  have h : pt.table.get? pid = some proc := h
  unfold get remove
  rw [h]
  dsimp only
  rw [Dict.get?_modify_eq_map, Dict.get?_erase]

theorem get_update (pt : ProcessTable) (pid : Int) (f : Process → Process) (other : Int) :
    (pt.update pid f).get other =
      (pt.get other).map fun proc => if other = pid then f proc else proc :=
  Dict.get?_modify_eq_map pt.table pid other f

theorem update_eq_self_iff {pt : ProcessTable} {pid : Int} {proc : Process}
    (h : pt.get pid = some proc) (f : Process → Process) :
    pt.update pid f = pt ↔ f proc = proc := by
  constructor
  · intro hsame
    have hget := get_update pt pid f pid
    rw [hsame, h, Option.map_some, if_pos rfl, Option.some.injEq] at hget
    exact hget.symm
  · intro hsame
    have h : pt.table.get? pid = some proc := h
    unfold update
    rw [Dict.modify_of_get? _ h, hsame, Dict.set_eq_self h]

theorem mem_remove {pt : ProcessTable} {pid : Int} {proc : Process}
    (h : pt.get pid = some proc) (other : Int) :
    other ∈ (pt.remove pid).table ↔ other ≠ pid ∧ other ∈ pt.table := by
  have h : pt.table.get? pid = some proc := h
  simp [remove, h]

theorem remove_pidAlloc {pt : ProcessTable} {pid : Int} {proc : Process}
    (h : pt.get pid = some proc) : (pt.remove pid).pidAlloc = pt.pidAlloc.free pid := by
  have h : pt.table.get? pid = some proc := h
  simp only [remove, h]

/-! ## Entries that stay as they are -/

theorem get_update_of_ne (pt : ProcessTable) {pid other : Int} (f : Process → Process)
    (h : other ≠ pid) : (pt.update pid f).get other = pt.get other :=
  Dict.get?_modify_of_ne _ _ h

theorem get_spawn_of_ne (pt : ProcessTable) (name : Str) {ppid other : Int} (uid gid : Int)
    (cmdline : Str) (hnew : other ≠ pt.pidAlloc.alloc.1) (hparent : other ≠ ppid) :
    (pt.spawn name ppid uid gid cmdline).2.get other = pt.get other := by
  rw [get, spawn_table, Dict.get?_modify_of_ne _ _ hparent, Dict.get?_set_of_ne _ _ hnew]
  rfl

theorem get_remove_of_ne {pt : ProcessTable} {pid other : Int} {proc : Process}
    (h : pt.get pid = some proc) (hgone : other ≠ pid) (hparent : other ≠ proc.ppid) :
    (pt.remove pid).get other = pt.get other := by
  rw [get_remove h, if_neg hgone]
  simp [hparent]

end ProcessTable

/-! ## Process numbers -/

namespace PidAllocator

theorem alloc_cases (a : PidAllocator) :
    (∃ rest, a.freePids = a.alloc.1 :: rest ∧ a.alloc.2 = { a with freePids := rest }) ∨
      (a.freePids = [] ∧ a.alloc = (a.nextPid, { a with nextPid := a.nextPid + 1 })) := by
  unfold PidAllocator.alloc
  cases hfree : a.freePids with
  | nil => exact Or.inr ⟨rfl, rfl⟩
  | cons pid rest => exact Or.inl ⟨rest, rfl, rfl⟩

theorem alloc_freePids (a : PidAllocator) : a.alloc.2.freePids = a.freePids.tail := by
  rcases a.alloc_cases with ⟨rest, hfree, halloc⟩ | ⟨hfree, halloc⟩
  · rw [halloc, hfree]
    rfl
  · rw [halloc, hfree]
    rfl

theorem nextPid_le_alloc (a : PidAllocator) : a.nextPid ≤ a.alloc.2.nextPid := by
  rcases a.alloc_cases with ⟨rest, hfree, halloc⟩ | ⟨hfree, halloc⟩
  · have hnext : a.alloc.2.nextPid = a.nextPid := by rw [halloc]
    omega
  · have hnext : a.alloc.2.nextPid = a.nextPid + 1 := by rw [halloc]
    omega

theorem alloc_not_mem_freePids {a : PidAllocator} (h : a.freePids.Nodup) :
    a.alloc.1 ∉ a.alloc.2.freePids := by
  rcases a.alloc_cases with ⟨rest, hfree, halloc⟩ | ⟨hfree, halloc⟩
  · rw [hfree, List.nodup_cons] at h
    rw [halloc]
    exact h.1
  · rw [alloc_freePids, hfree]
    exact List.not_mem_nil

theorem mem_free (a : PidAllocator) (pid other : Int) :
    other ∈ (a.free pid).freePids ↔ other ∈ a.freePids ∨ (other = pid ∧ 1 < pid) := by
  unfold free
  split
  · simp [*]
  · simp [*]

theorem free_nextPid (a : PidAllocator) (pid : Int) : (a.free pid).nextPid = a.nextPid := by
  unfold free
  split
  · rfl
  · rfl

theorem free_nodup {a : PidAllocator} {pid : Int} (h : a.freePids.Nodup)
    (hpid : pid ∉ a.freePids) : (a.free pid).freePids.Nodup := by
  unfold free
  split
  · exact h.append (List.nodup_singleton pid) (List.disjoint_singleton.mpr hpid)
  · exact h

end PidAllocator

namespace ProcessTable

namespace PidsOk

variable {pt : ProcessTable}

theorem alloc_fresh (h : PidsOk pt) : pt.pidAlloc.alloc.1 ∉ pt.table := by
  rcases pt.pidAlloc.alloc_cases with ⟨rest, hfree, -⟩ | ⟨-, halloc⟩
  · apply h.exclusive
    rw [hfree]
    exact List.mem_cons_self
  · intro hmem
    rw [halloc] at hmem
    have hpos := h.two_le_nextPid
    have hrange := (h.handedOut _).mpr (Or.inl ⟨hmem, by omega⟩)
    omega

theorem get_alloc (h : PidsOk pt) : pt.get pt.pidAlloc.alloc.1 = none :=
  Dict.get?_eq_none.mpr h.alloc_fresh

theorem two_le_alloc (h : PidsOk pt) : 2 ≤ pt.pidAlloc.alloc.1 := by
  rcases pt.pidAlloc.alloc_cases with ⟨rest, hfree, -⟩ | ⟨-, halloc⟩
  · have hmem : pt.pidAlloc.alloc.1 ∈ pt.pidAlloc.freePids := by
      rw [hfree]
      exact List.mem_cons_self
    exact ((h.handedOut _).mpr (Or.inr hmem)).1
  · rw [halloc]
    exact h.two_le_nextPid

theorem nonneg (h : PidsOk pt) {pid : Int} (hpid : pid ∈ pt.table) : 0 ≤ pid := by
  by_cases hzero : pid = 0
  · omega
  · have hrange := (h.handedOut pid).mpr (Or.inl ⟨hpid, hzero⟩)
    omega

theorem init : PidsOk ProcessTable.init where
  keyed := by
    intro pid proc hproc
    obtain ⟨rfl, rfl⟩ := init_eq hproc
    rfl
  handedOut := by
    intro pid
    simp only [ProcessTable.init, PidAllocator.init, Dict.mem_set, Dict.not_mem_empty,
      List.not_mem_nil, or_false]
    omega
  exclusive := by
    intro pid hpid
    cases hpid
  freePids_nodup := List.nodup_nil
  two_le_nextPid := by decide

theorem spawn (h : PidsOk pt) (name : Str) (ppid uid gid : Int) (cmdline : Str) :
    PidsOk (pt.spawn name ppid uid gid cmdline).2 where
  keyed := by
    intro pid proc hproc
    rw [get_spawn] at hproc
    obtain ⟨old, hold, rfl⟩ := Option.map_eq_some_iff.mp hproc
    have hkey : old.pid = pid := by
      split at hold
      · rename_i hnew
        cases hold
        exact hnew.symm
      · exact h.keyed pid old hold
    split
    · exact hkey
    · exact hkey
  handedOut := by
    intro pid
    rw [mem_spawn]
    have hold := h.handedOut pid
    have hpos := h.two_le_alloc
    change 2 ≤ pid ∧ pid < pt.pidAlloc.alloc.2.nextPid ↔ _ ∨ pid ∈ pt.pidAlloc.alloc.2.freePids
    rcases pt.pidAlloc.alloc_cases with ⟨rest, hfree, halloc⟩ | ⟨hfree, halloc⟩
    · rw [halloc]
      rw [hfree, List.mem_cons] at hold
      grind
    · rw [halloc] at hpos ⊢
      rw [hfree] at hold ⊢
      simp only [List.not_mem_nil, or_false] at hold ⊢
      grind
  exclusive := by
    intro pid hpid
    change pid ∈ pt.pidAlloc.alloc.2.freePids at hpid
    rw [mem_spawn]
    rintro (hnew | hlive)
    · rw [hnew] at hpid
      exact PidAllocator.alloc_not_mem_freePids h.freePids_nodup hpid
    · rw [PidAllocator.alloc_freePids] at hpid
      exact h.exclusive pid (List.mem_of_mem_tail hpid) hlive
  freePids_nodup := by
    change pt.pidAlloc.alloc.2.freePids.Nodup
    rw [PidAllocator.alloc_freePids]
    exact h.freePids_nodup.tail
  two_le_nextPid := Int.le_trans h.two_le_nextPid pt.pidAlloc.nextPid_le_alloc

theorem remove_of_some (h : PidsOk pt) {pid : Int} {proc : Process}
    (hproc : pt.get pid = some proc) : PidsOk (pt.remove pid) where
  keyed := by
    intro other kept hkept
    rw [get_remove hproc] at hkept
    obtain ⟨old, hold, rfl⟩ := Option.map_eq_some_iff.mp hkept
    have hkey : old.pid = other := by
      split at hold
      · cases hold
      · exact h.keyed other old hold
    split
    · exact hkey
    · exact hkey
  handedOut := by
    intro other
    have hlive : pid ∈ pt.table := mem_table_iff.mpr ⟨proc, hproc⟩
    have hnonneg := h.nonneg hlive
    have hold := h.handedOut other
    have hpid := h.handedOut pid
    rw [remove_pidAlloc hproc, PidAllocator.mem_free, PidAllocator.free_nextPid,
      mem_remove hproc]
    grind
  exclusive := by
    intro other hother
    rw [remove_pidAlloc hproc, PidAllocator.mem_free] at hother
    rw [mem_remove hproc]
    rintro ⟨hne, hlive⟩
    rcases hother with hother | ⟨hpid, -⟩
    · exact h.exclusive other hother hlive
    · exact hne hpid
  freePids_nodup := by
    rw [remove_pidAlloc hproc]
    apply PidAllocator.free_nodup h.freePids_nodup
    intro hfree
    exact h.exclusive pid hfree (mem_table_iff.mpr ⟨proc, hproc⟩)
  two_le_nextPid := by
    rw [remove_pidAlloc hproc, PidAllocator.free_nextPid]
    exact h.two_le_nextPid

theorem remove (h : PidsOk pt) (pid : Int) : PidsOk (pt.remove pid) := by
  cases hproc : pt.get pid with
  | none =>
      rw [remove_of_none hproc]
      exact h
  | some proc => exact h.remove_of_some hproc

theorem update (h : PidsOk pt) {f : Process → Process} (hf : Process.KeepsFamily f)
    (pid : Int) : PidsOk (pt.update pid f) where
  keyed := by
    intro other proc hproc
    rw [get_update] at hproc
    obtain ⟨old, hold, rfl⟩ := Option.map_eq_some_iff.mp hproc
    have hkey := h.keyed other old hold
    split
    · rw [hf.pid, hkey]
    · exact hkey
  handedOut := by
    intro other
    have hsame : other ∈ (pt.update pid f).table ↔ other ∈ pt.table := Dict.mem_modify
    rw [hsame]
    exact h.handedOut other
  exclusive := by
    intro other hother hlive
    exact h.exclusive other hother (Dict.mem_modify.mp hlive)
  freePids_nodup := h.freePids_nodup
  two_le_nextPid := h.two_le_nextPid

end PidsOk

/-! ## Children lists -/

namespace FamilyOk

variable {pt : ProcessTable}

theorem ppid_addChild_if (c : Prop) [Decidable c] (proc : Process) (pid : Int) :
    (if c then proc.addChild pid else proc).ppid = proc.ppid := by
  split
  · rfl
  · rfl

theorem init : FamilyOk ProcessTable.init where
  listed := by
    intro pid proc hproc c hc
    rw [(init_eq hproc).2] at hc
    cases hc
  children_nodup := by
    intro pid proc hproc
    rw [(init_eq hproc).2]
    exact List.nodup_nil

theorem spawn (h : FamilyOk pt) (hpids : PidsOk pt) (name : Str) (ppid uid gid : Int)
    (cmdline : Str) : FamilyOk (pt.spawn name ppid uid gid cmdline).2 := by
  have hfresh := hpids.get_alloc
  -- what an entry was before the parent's list grew
  have hold : ∀ pid proc, (pt.spawn name ppid uid gid cmdline).2.get pid = some proc →
      ∃ old, (∀ c ∈ old.children, ∃ child, pt.get c = some child ∧ child.ppid = pid) ∧
        old.children.Nodup ∧
        proc = if pid = ppid then old.addChild pt.pidAlloc.alloc.1 else old := by
    intro pid proc hproc
    rw [get_spawn] at hproc
    obtain ⟨old, hold, rfl⟩ := Option.map_eq_some_iff.mp hproc
    refine ⟨old, ?_, ?_, rfl⟩
    · split at hold
      · cases hold
        intro c hc
        cases hc
      · exact h.listed pid old hold
    · split at hold
      · cases hold
        exact List.nodup_nil
      · exact h.children_nodup pid old hold
  constructor
  · intro pid proc hproc c hc
    obtain ⟨old, hlisted, -, rfl⟩ := hold pid proc hproc
    have hcases : c ∈ old.children ∨ (c = pt.pidAlloc.alloc.1 ∧ pid = ppid) := by
      split at hc
      · rename_i hpid
        rcases List.mem_append.mp hc with hc | hc
        · exact Or.inl hc
        · exact Or.inr ⟨List.mem_singleton.mp hc, hpid⟩
      · exact Or.inl hc
    rcases hcases with hc | ⟨rfl, rfl⟩
    · obtain ⟨child, hchild, hppid⟩ := hlisted c hc
      have hne : c ≠ pt.pidAlloc.alloc.1 := by
        intro heq
        rw [heq, hfresh] at hchild
        cases hchild
      rw [get_spawn, if_neg hne, hchild]
      exact ⟨_, rfl, (ppid_addChild_if _ _ _).trans hppid⟩
    · rw [get_spawn, if_pos rfl]
      exact ⟨_, rfl, ppid_addChild_if _ _ _⟩
  · intro pid proc hproc
    obtain ⟨old, hlisted, hnodup, rfl⟩ := hold pid proc hproc
    split
    · refine List.nodup_append.mpr ⟨hnodup, List.nodup_singleton _, ?_⟩
      intro c hc c' hc' heq
      rw [List.mem_singleton.mp hc'] at heq
      obtain ⟨child, hchild, -⟩ := hlisted c hc
      rw [heq, hfresh] at hchild
      cases hchild
    · exact hnodup

theorem remove (h : FamilyOk pt) (pid : Int) : FamilyOk (pt.remove pid) := by
  cases hproc : pt.get pid with
  | none =>
      rw [remove_of_none hproc]
      exact h
  | some proc =>
      have hold : ∀ other kept, (pt.remove pid).get other = some kept →
          ∃ old, pt.get other = some old ∧
            kept = if other = proc.ppid then old.removeChild pid else old := by
        intro other kept hkept
        rw [get_remove hproc] at hkept
        obtain ⟨old, hold, rfl⟩ := Option.map_eq_some_iff.mp hkept
        split at hold
        · cases hold
        · exact ⟨old, hold, rfl⟩
      constructor
      · intro other kept hkept c hc
        obtain ⟨old, hget, rfl⟩ := hold other kept hkept
        have hnodup := h.children_nodup other old hget
        have hmem : c ∈ old.children ∧ (other = proc.ppid → c ≠ pid) := by
          split at hc
          · rw [Process.removeChild, hnodup.mem_erase_iff] at hc
            exact ⟨hc.2, fun _ => hc.1⟩
          · rename_i hother
            exact ⟨hc, fun heq => absurd heq hother⟩
        obtain ⟨child, hchild, hppid⟩ := h.listed other old hget c hmem.1
        have hne : c ≠ pid := by
          intro heq
          rw [heq, hproc] at hchild
          cases hchild
          exact hmem.2 hppid.symm heq
        rw [get_remove hproc, if_neg hne, hchild]
        refine ⟨_, rfl, ?_⟩
        split
        · exact hppid
        · exact hppid
      · intro other kept hkept
        obtain ⟨old, hget, rfl⟩ := hold other kept hkept
        have hnodup := h.children_nodup other old hget
        split
        · exact hnodup.erase pid
        · exact hnodup

theorem update (h : FamilyOk pt) {f : Process → Process} (hf : Process.KeepsFamily f)
    (pid : Int) : FamilyOk (pt.update pid f) := by
  have hsame : ∀ (other : Int) (old : Process),
      (if other = pid then f old else old).ppid = old.ppid ∧
        (if other = pid then f old else old).children = old.children := by
    intro other old
    split
    · exact ⟨hf.ppid old, hf.children old⟩
    · exact ⟨rfl, rfl⟩
  constructor
  · intro other proc hproc c hc
    rw [get_update] at hproc
    obtain ⟨old, hold, rfl⟩ := Option.map_eq_some_iff.mp hproc
    rw [(hsame other old).2] at hc
    obtain ⟨child, hchild, hppid⟩ := h.listed other old hold c hc
    rw [get_update, hchild]
    exact ⟨_, rfl, (hsame c child).1.trans hppid⟩
  · intro other proc hproc
    rw [get_update] at hproc
    obtain ⟨old, hold, rfl⟩ := Option.map_eq_some_iff.mp hproc
    rw [(hsame other old).2]
    exact h.children_nodup other old hold

end FamilyOk

/-! ## Descriptors held by processes -/

def HasTable (pt : ProcessTable) (pid : Int) (fdt : FileDescriptorTable) : Prop :=
  ∃ proc, pt.get pid = some proc ∧ proc.fdt = fdt

def Holds (pt : ProcessTable) (pid fd : Int) : Prop :=
  ∃ proc, pt.get pid = some proc ∧ fd ∈ proc.fdt.table

theorem HasTable.holds {pt : ProcessTable} {pid fd : Int} {fdt : FileDescriptorTable}
    (h : pt.HasTable pid fdt) (hfd : fd ∈ fdt.table) : pt.Holds pid fd := by
  obtain ⟨proc, hproc, rfl⟩ := h
  exact ⟨proc, hproc, hfd⟩

theorem Holds.hasTable {pt : ProcessTable} {pid fd : Int} (h : pt.Holds pid fd) :
    ∃ fdt, pt.HasTable pid fdt ∧ fd ∈ fdt.table := by
  obtain ⟨proc, hproc, hfd⟩ := h
  exact ⟨proc.fdt, ⟨proc, hproc, rfl⟩, hfd⟩

theorem hasTable_of_spawn {pt : ProcessTable} {name : Str} {ppid uid gid : Int} {cmdline : Str}
    {pid : Int} {fdt : FileDescriptorTable}
    (h : (pt.spawn name ppid uid gid cmdline).2.HasTable pid fdt) :
    pt.HasTable pid fdt ∨ fdt = {} := by
  obtain ⟨proc, hproc, rfl⟩ := h
  rw [get_spawn] at hproc
  obtain ⟨old, hold, rfl⟩ := Option.map_eq_some_iff.mp hproc
  have hkeep : (if pid = ppid then old.addChild pt.pidAlloc.alloc.1 else old).fdt = old.fdt := by
    split
    · rfl
    · rfl
  rw [hkeep]
  split at hold
  · cases hold
    exact Or.inr rfl
  · exact Or.inl ⟨old, hold, rfl⟩

theorem hasTable_of_remove {pt : ProcessTable} {removed pid : Int} {fdt : FileDescriptorTable}
    (h : (pt.remove removed).HasTable pid fdt) : pt.HasTable pid fdt := by
  cases hremoved : pt.get removed with
  | none =>
      rw [remove_of_none hremoved] at h
      exact h
  | some gone =>
      obtain ⟨proc, hproc, rfl⟩ := h
      rw [get_remove hremoved] at hproc
      obtain ⟨old, hold, rfl⟩ := Option.map_eq_some_iff.mp hproc
      have hkeep : (if pid = gone.ppid then old.removeChild removed else old).fdt = old.fdt := by
        split
        · rfl
        · rfl
      rw [hkeep]
      split at hold
      · cases hold
      · exact ⟨old, hold, rfl⟩

theorem hasTable_of_update {pt : ProcessTable} {updated pid : Int} {f : Process → Process}
    {fdt : FileDescriptorTable} (h : (pt.update updated f).HasTable pid fdt) :
    (pid ≠ updated ∧ pt.HasTable pid fdt) ∨ (pid = updated ∧
      ∃ proc, pt.get pid = some proc ∧ (f proc).fdt = fdt) := by
  obtain ⟨proc, hproc, rfl⟩ := h
  rw [get_update] at hproc
  obtain ⟨old, hold, rfl⟩ := Option.map_eq_some_iff.mp hproc
  by_cases hpid : pid = updated
  · rw [if_pos hpid]
    exact Or.inr ⟨hpid, old, hold, rfl⟩
  · rw [if_neg hpid]
    exact Or.inl ⟨hpid, old, hold, rfl⟩

theorem hasTable_of_update_keep {pt : ProcessTable} {updated pid : Int}
    {f : Process → Process} {fdt : FileDescriptorTable}
    (h : (pt.update updated f).HasTable pid fdt) (hf : ∀ proc, (f proc).fdt = proc.fdt) :
    pt.HasTable pid fdt := by
  rcases hasTable_of_update h with ⟨-, h⟩ | ⟨-, proc, hproc, hfdt⟩
  · exact h
  · rw [hf] at hfdt
    exact ⟨proc, hproc, hfdt⟩

theorem holds_of_spawn {pt : ProcessTable} {name : Str} {ppid uid gid : Int} {cmdline : Str}
    {pid fd : Int} (h : (pt.spawn name ppid uid gid cmdline).2.Holds pid fd) :
    pt.Holds pid fd := by
  obtain ⟨fdt, htable, hfd⟩ := h.hasTable
  rcases hasTable_of_spawn htable with hold | hempty
  · exact hold.holds hfd
  · rw [hempty] at hfd
    exact absurd hfd (Dict.not_mem_empty fd)

theorem holds_of_remove {pt : ProcessTable} {removed pid fd : Int}
    (h : (pt.remove removed).Holds pid fd) : pt.Holds pid fd := by
  obtain ⟨fdt, htable, hfd⟩ := h.hasTable
  exact (hasTable_of_remove htable).holds hfd

theorem holds_of_update {pt : ProcessTable} {updated pid fd : Int} {f : Process → Process}
    (h : (pt.update updated f).Holds pid fd) :
    pt.Holds pid fd ∨ (pid = updated ∧
      ∃ proc, pt.get pid = some proc ∧ fd ∈ (f proc).fdt.table) := by
  obtain ⟨fdt, htable, hfd⟩ := h.hasTable
  rcases hasTable_of_update htable with ⟨-, hold⟩ | ⟨hpid, proc, hproc, rfl⟩
  · exact Or.inl (hold.holds hfd)
  · exact Or.inr ⟨hpid, proc, hproc, hfd⟩

theorem holds_of_update_keep {pt : ProcessTable} {updated pid fd : Int}
    {f : Process → Process} (h : (pt.update updated f).Holds pid fd)
    (hf : ∀ proc, (f proc).fdt = proc.fdt) : pt.Holds pid fd := by
  obtain ⟨fdt, htable, hfd⟩ := h.hasTable
  exact (hasTable_of_update_keep htable hf).holds hfd

end ProcessTable

end ComputeKernel.Tasks
