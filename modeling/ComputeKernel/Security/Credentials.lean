import ComputeKernel.Kernel.Boot
import ComputeKernel.Lib.Run
import ComputeKernel.Tasks.ProcessTable

/-!
# Credentials

Credentials are made from others in two ways: `dropPrivileges` takes a new user id, and
`fork` gives the child the real user id of its parent.
-/

namespace ComputeKernel.Tasks

namespace Credentials

def isRoot (creds : Credentials) : Bool :=
  creds.euid == 0

end Credentials

def Process.setCreds (proc : Process) (creds : Credentials) : Process :=
  { proc with creds := creds }

end ComputeKernel.Tasks

namespace ComputeKernel.Security

open Kernel Lib Lib.Run Tasks

def checkPermission (creds : Credentials) (_capability : Int) : Bool :=
  if creds.euid = 0 then true else false

def dropPrivileges (creds : Credentials) (newUid : Int) : Credentials :=
  { uid := newUid, gid := creds.gid, euid := newUid, egid := creds.egid }

theorem checkPermission_eq_false {creds : Credentials} (capability : Int) :
    checkPermission creds capability = false ↔ creds.euid ≠ 0 := by
  simp [checkPermission]

/-! ## Fork -/

theorem creds_sysFork {k : KernelState} {pid : Int} {parent : Process}
    (h : k.processTable.get pid = some parent) (other : Int) :
    ((k.sysFork pid).2.processTable.get other).map Process.creds =
      if other = (k.sysFork pid).1 then
        some ⟨parent.creds.uid, parent.creds.gid, parent.creds.uid, parent.creds.gid⟩
      else (k.processTable.get other).map Process.creds := by
  unfold KernelState.sysFork
  rw [h]
  dsimp only
  rw [ProcessTable.get_update, ProcessTable.get_spawn, Option.map_map, Option.map_map]
  have hcreds : ∀ proc : Process,
      ((Process.creds ∘ fun child =>
          if other = (k.processTable.spawn parent.name pid parent.creds.uid parent.creds.gid
            parent.cmdline).1.pid then child.setCwd parent.cwd else child) ∘ fun proc =>
          if other = pid then proc.addChild k.processTable.pidAlloc.alloc.1 else proc) proc =
        proc.creds := by
    intro proc
    dsimp only [Function.comp_apply]
    split <;> split <;> rfl
  rw [funext hcreds]
  change Option.map _ (if other = k.processTable.pidAlloc.alloc.1 then _ else _) =
    if other = k.processTable.pidAlloc.alloc.1 then _ else _
  split <;> rfl

/-! ## A process and its descendants -/

/-- The kernel, a process with the descendants it has by now, and the credentials made for
them. -/
structure Lineage where
  kernel : KernelState
  pids : List Int
  creds : List Credentials

namespace Lineage

def start (k : KernelState) (pid : Int) (creds : Credentials) : Lineage where
  kernel := { k with processTable := k.processTable.update pid fun proc => proc.setCreds creds }
  pids := [pid]
  creds := [creds]

inductive Op
  /-- Drop privileges, from the credentials made as number `i`. -/
  | drop (i : Nat) (newUid : Int)
  /-- Give a process of the lineage the credentials made as number `i`. -/
  | commit (pid : Int) (i : Nat)
  | fork (pid : Int)
  deriving DecidableEq

def step (l : Lineage) : Op → Lineage
  | .drop i newUid =>
      match l.creds[i]? with
      | none => l
      | some creds => { l with creds := l.creds ++ [dropPrivileges creds newUid] }
  | .commit pid i =>
      match l.creds[i]? with
      | none => l
      | some creds =>
          { l with
            kernel := { l.kernel with
              processTable := l.kernel.processTable.update pid fun proc => proc.setCreds creds } }
  | .fork pid =>
      if pid ∈ l.pids then
        match l.kernel.processTable.get pid with
        | none => l
        | some _ =>
            { l with
              kernel := (l.kernel.sysFork pid).2
              pids := (l.kernel.sysFork pid).1 :: l.pids }
      else l

def credsOf (l : Lineage) (pid : Int) : Option Credentials :=
  (l.kernel.processTable.get pid).map Process.creds

def Unprivileged (l : Lineage) : Prop :=
  (∀ creds ∈ l.creds, creds.euid ≠ 0 ∧ ∀ capability, checkPermission creds capability = false) ∧
  ∀ pid ∈ l.pids, ∀ creds, l.credsOf pid = some creds →
    creds.euid ≠ 0 ∧ ∀ capability, checkPermission creds capability = false

/-- Privileges are not dropped to user id 0, and a process that forks has another real
user id than 0. -/
def Permits (l : Lineage) : Op → Prop
  | .drop i newUid => i < l.creds.length → newUid ≠ 0
  | .commit _ _ => True
  | .fork pid => pid ∈ l.pids → ∀ creds, l.credsOf pid = some creds → creds.uid ≠ 0

theorem unprivileged_iff {l : Lineage} :
    l.Unprivileged ↔ (∀ creds ∈ l.creds, creds.euid ≠ 0) ∧
      ∀ pid ∈ l.pids, ∀ creds, l.credsOf pid = some creds → creds.euid ≠ 0 := by
  have heuid : ∀ creds : Credentials,
      (creds.euid ≠ 0 ∧ ∀ capability, checkPermission creds capability = false) ↔
        creds.euid ≠ 0 := by
    intro creds
    apply and_iff_left_of_imp
    exact fun h capability => (checkPermission_eq_false capability).mpr h
  simp only [Unprivileged, heuid]

theorem unprivileged_drop_iff {l : Lineage} (h : l.Unprivileged) (i : Nat) (newUid : Int) :
    (l.step (.drop i newUid)).Unprivileged ↔ l.Permits (.drop i newUid) := by
  change _ ↔ (i < l.creds.length → newUid ≠ 0)
  cases hget : l.creds[i]? with
  | none =>
      have hi := List.getElem?_eq_none_iff.mp hget
      have hstep : l.step (.drop i newUid) = l := by
        simp only [step, hget]
      rw [hstep]
      exact iff_of_true h fun hlt => absurd hlt (Nat.not_lt.mpr hi)
  | some creds =>
      obtain ⟨hi, -⟩ := List.getElem?_eq_some_iff.mp hget
      have hstep : l.step (.drop i newUid) =
          { l with creds := l.creds ++ [dropPrivileges creds newUid] } := by
        simp only [step, hget]
      rw [unprivileged_iff] at h
      obtain ⟨hmade, hpids⟩ := h
      rw [hstep, unprivileged_iff]
      dsimp only
      rw [List.forall_mem_append, List.forall_mem_singleton]
      constructor
      · rintro ⟨⟨-, hdropped⟩, -⟩ _
        exact hdropped
      · intro huid
        exact ⟨⟨hmade, huid hi⟩, hpids⟩

theorem unprivileged_commit {l : Lineage} (h : l.Unprivileged) (pid : Int) (i : Nat) :
    (l.step (.commit pid i)).Unprivileged := by
  cases hget : l.creds[i]? with
  | none =>
      have hstep : l.step (.commit pid i) = l := by
        simp only [step, hget]
      rwa [hstep]
  | some creds =>
      have hstep : l.step (.commit pid i) =
          { l with
            kernel := { l.kernel with
              processTable :=
                l.kernel.processTable.update pid fun proc => proc.setCreds creds } } := by
        simp only [step, hget]
      rw [unprivileged_iff] at h
      obtain ⟨hmade, hpids⟩ := h
      rw [hstep, unprivileged_iff]
      refine ⟨hmade, ?_⟩
      intro other hother newCreds hnew
      change ((l.kernel.processTable.update pid fun proc => proc.setCreds creds).get other).map
        Process.creds = some newCreds at hnew
      rw [ProcessTable.get_update, Option.map_map] at hnew
      obtain ⟨proc, hproc, rfl⟩ := Option.map_eq_some_iff.mp hnew
      dsimp only [Function.comp_apply]
      split
      · exact hmade creds (List.mem_of_getElem? hget)
      · apply hpids other hother
        rw [credsOf, hproc, Option.map_some]

theorem unprivileged_fork_iff {l : Lineage} (h : l.Unprivileged) (pid : Int) :
    (l.step (.fork pid)).Unprivileged ↔ l.Permits (.fork pid) := by
  change _ ↔ (pid ∈ l.pids → ∀ creds, l.credsOf pid = some creds → creds.uid ≠ 0)
  by_cases hmem : pid ∈ l.pids
  · cases hget : l.kernel.processTable.get pid with
    | none =>
        have hstep : l.step (.fork pid) = l := by
          simp only [step, if_pos hmem, hget]
        rw [hstep]
        refine iff_of_true h fun _ creds hcreds => ?_
        rw [credsOf, hget] at hcreds
        cases hcreds
    | some parent =>
        have hstep : l.step (.fork pid) =
            { l with
              kernel := (l.kernel.sysFork pid).2
              pids := (l.kernel.sysFork pid).1 :: l.pids } := by
          simp only [step, if_pos hmem, hget]
        have hparent : l.credsOf pid = some parent.creds := by
          rw [credsOf, hget, Option.map_some]
        rw [unprivileged_iff] at h
        obtain ⟨hmade, hpids⟩ := h
        rw [hstep, unprivileged_iff]
        simp only [credsOf, creds_sysFork hget, List.forall_mem_cons, if_true]
        constructor
        · rintro ⟨-, hchild, -⟩ _ creds hcreds
          rw [hget, Option.map_some] at hcreds
          cases hcreds
          exact hchild _ rfl
        · intro huid
          have hchild : parent.creds.uid ≠ 0 := huid hmem parent.creds hparent
          refine ⟨hmade, ?_, ?_⟩
          · rintro creds hcreds
            cases hcreds
            exact hchild
          · intro other hother creds hcreds
            split at hcreds
            · cases hcreds
              exact hchild
            · exact hpids other hother creds hcreds
  · have hstep : l.step (.fork pid) = l := by
      simp only [step, if_neg hmem]
    rw [hstep]
    exact iff_of_true h fun hpid => absurd hpid hmem

theorem unprivileged_step_iff {l : Lineage} (h : l.Unprivileged) (op : Op) :
    (l.step op).Unprivileged ↔ l.Permits op := by
  cases op with
  | drop i newUid => exact unprivileged_drop_iff h i newUid
  | commit pid i => exact iff_of_true (unprivileged_commit h pid i) trivial
  | fork pid => exact unprivileged_fork_iff h pid

theorem unprivileged_start (k : KernelState) (pid : Int) {creds : Credentials}
    (h : creds.euid ≠ 0) : (start k pid creds).Unprivileged := by
  rw [unprivileged_iff]
  constructor
  · intro made hmade
    rwa [List.mem_singleton.mp hmade]
  · intro other hother made hmade
    change ((k.processTable.update pid fun proc => proc.setCreds creds).get other).map
      Process.creds = some made at hmade
    rw [List.mem_singleton.mp hother, ProcessTable.get_update, Option.map_map] at hmade
    obtain ⟨proc, -, rfl⟩ := Option.map_eq_some_iff.mp hmade
    dsimp only [Function.comp_apply]
    rwa [if_pos rfl]

/-- A process that is not effectively root, and its descendants, stay so throughout a run
exactly when no call takes the user id 0 from its arguments or from a real user id. -/
theorem always_unprivileged_iff (k : KernelState) (pid : Int) {creds : Credentials}
    (h : creds.euid ≠ 0) (ops : List Op) :
    Always step Unprivileged (start k pid creds) ops ↔
      Guarded step Permits (start k pid creds) ops := by
  apply always_iff_guarded
  · exact fun l op hl hop => (unprivileged_step_iff hl op).mpr hop
  · exact fun l op hl hop hnext => hop ((unprivileged_step_iff hl op).mp hnext)
  · exact unprivileged_start k pid h

/-- The init process drops to another user id and forks. -/
theorem always_unprivileged_init :
    let creds : Credentials := { uid := 1000, gid := 1000, euid := 1000, egid := 1000 }
    creds.euid ≠ 0 ∧
      Always step Unprivileged (start boot 2 creds) [.drop 0 1001, .commit 2 1, .fork 2] := by
  intro creds
  refine ⟨by decide, (always_unprivileged_iff boot 2 (by decide) _).mpr ?_⟩
  refine ⟨fun _ => by decide, trivial, ?_, trivial⟩
  intro _ held hheld
  have hcommitted : some (dropPrivileges creds 1001) = some held := hheld
  cases hcommitted
  decide

/-- Dropping to user id 0 makes root credentials, and the child of a process with the real
user id 0 is root, whatever the effective user id of its parent is. -/
theorem root_regained :
    let creds : Credentials := { uid := 0, gid := 0, euid := 1000, egid := 1000 }
    let l := start boot 2 creds
    dropPrivileges creds 0 ∈ (l.step (.drop 0 0)).creds ∧
    checkPermission (dropPrivileges creds 0) 21 = true ∧
    (l.step (.fork 2)).pids = [3, 2] ∧
    (l.step (.fork 2)).credsOf 3 = some { uid := 0, gid := 0, euid := 0, egid := 0 } ∧
    ¬ Always step Unprivileged l [.fork 2] := by
  intro creds l
  have hchild : (l.step (.fork 2)).credsOf 3 =
      some { uid := 0, gid := 0, euid := 0, egid := 0 } := rfl
  have hpids : (l.step (.fork 2)).pids = [3, 2] := rfl
  refine ⟨by decide, by decide, hpids, hchild, ?_⟩
  rintro ⟨-, -, hnext⟩
  exact (hnext 3 (by rw [hpids]; decide) _ hchild).1 rfl

end Lineage

end ComputeKernel.Security
