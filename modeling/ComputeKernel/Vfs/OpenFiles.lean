import ComputeKernel.Lib.Run
import ComputeKernel.Lib.StableSort
import ComputeKernel.Vfs.Resolution

/-!
# The filesystem behind an open descriptor

An open file remembers a path and an inode number, and its filesystem is found again from
the path.  A mount can therefore give an open descriptor another filesystem, where the
number means another inode.
-/

namespace ComputeKernel.Vfs

open Lib Lib.Path Fs

namespace VFS

variable {ρ F : Type}

def fileOf (vfs : VFS ρ F) (fd : Int) : Option (Str × Int) :=
  (vfs.openFiles.get? fd).map fun file => (file.path, file.ino)

/-- Filesystem and inode number that a read or write through a descriptor acts on. -/
def target (vfs : VFS ρ F) (fd : Int) : Option (ρ × Int) :=
  (vfs.fileOf fd).bind fun (path, ino) => (vfs.fsOf path).map fun ref => (ref, ino)

structure SameTargets (vfs vfs' : VFS ρ F) : Prop where
  mounts : vfs'.mounts = vfs.mounts
  fileOf : ∀ fd, vfs'.fileOf fd = vfs.fileOf fd

theorem SameTargets.refl (vfs : VFS ρ F) : SameTargets vfs vfs :=
  ⟨rfl, fun _ => rfl⟩

theorem fsOf_congr {vfs vfs' : VFS ρ F} (h : vfs'.mounts = vfs.mounts) (path : Str) :
    vfs'.fsOf path = vfs.fsOf path := by
  unfold fsOf bestMount
  rw [h]

theorem target_of_fileOf {vfs : VFS ρ F} {fd : Int} {path : Str} {ino : Int}
    (h : vfs.fileOf fd = some (path, ino)) :
    vfs.target fd = (vfs.fsOf path).map fun ref => (ref, ino) := by
  rw [target, h]
  rfl

theorem target_congr {vfs vfs' : VFS ρ F} (hmounts : vfs'.mounts = vfs.mounts) {fd : Int}
    (hfile : vfs'.fileOf fd = vfs.fileOf fd) : vfs'.target fd = vfs.target fd := by
  unfold target
  rw [hfile]
  apply congrArg
  funext ⟨path, ino⟩
  exact congrArg (Option.map fun ref => (ref, ino)) (fsOf_congr hmounts path)

theorem advance_sameTargets (vfs : VFS ρ F) (fd n : Int) : SameTargets vfs (vfs.advance fd n) where
  mounts := rfl
  fileOf other := by
    unfold VFS.fileOf advance
    rw [Dict.get?_modify_eq_map]
    cases vfs.openFiles.get? other with
    | none => rfl
    | some file =>
        by_cases h : other = fd <;> simp [h]

section Filesystem

variable [Filesystem F]

theorem file_of_target {vfs : VFS ρ F} {fd : Int} {ref : ρ} {ino : Int}
    (h : vfs.target fd = some (ref, ino)) :
    ∃ file, vfs.openFiles.get? fd = some file ∧ file.ino = ino ∧
      (vfs.resolvePath file.path).1 = some ref := by
  unfold target fileOf at h
  cases hfile : vfs.openFiles.get? fd with
  | none => simp [hfile] at h
  | some file =>
      rw [hfile] at h
      obtain ⟨ref', href, hsame⟩ := Option.map_eq_some_iff.mp h
      obtain ⟨rfl, rfl⟩ := Prod.mk.inj hsame
      exact ⟨file, rfl, rfl, by rw [resolvePath_fst, href]⟩

theorem read_sameTargets (vfs : VFS ρ F) (fd size : Int) :
    SameTargets vfs (vfs.read fd size).2 := by
  unfold read
  split
  · exact SameTargets.refl vfs
  · split
    · exact SameTargets.refl vfs
    · exact advance_sameTargets vfs fd _

variable [DecidableEq ρ]

/-- Reads take their bytes from this inode of this filesystem, and writes go there and leave
the other filesystems as they are. -/
def ActsOn (vfs : VFS ρ F) (fd : Int) (ref : ρ) (ino : Int) : Prop :=
  ∃ file, vfs.openFiles.get? fd = some file ∧
    (∀ size, (vfs.read fd size).1 =
      Filesystem.read (vfs.filesystems ref) ino file.position size) ∧
    ∀ data, (vfs.write fd data).1 =
        (Filesystem.write (vfs.filesystems ref) ino file.position data).1 ∧
      (vfs.write fd data).2.filesystems = Function.update vfs.filesystems ref
        (Filesystem.write (vfs.filesystems ref) ino file.position data).2

theorem actsOn_of_target {vfs : VFS ρ F} {fd : Int} {ref : ρ} {ino : Int}
    (h : vfs.target fd = some (ref, ino)) : vfs.ActsOn fd ref ino := by
  obtain ⟨file, hfile, rfl, href⟩ := file_of_target h
  refine ⟨file, hfile, ?_, ?_⟩
  · intro size
    simp only [read, hfile, href]
  · intro data
    simp only [write, hfile, href, true_and]
    split
    · rfl
    · rfl

theorem write_sameTargets (vfs : VFS ρ F) (fd : Int) (data : Bytes) :
    SameTargets vfs (vfs.write fd data).2 := by
  unfold write
  split
  · exact SameTargets.refl vfs
  · split
    · exact SameTargets.refl vfs
    · dsimp only
      split
      · obtain ⟨hmounts, hfiles⟩ := advance_sameTargets (vfs.setFs _ _) fd _
        exact ⟨hmounts, hfiles⟩
      · exact ⟨rfl, fun _ => rfl⟩

theorem mkdir_sameTargets (vfs : VFS ρ F) (path : Str) :
    SameTargets vfs (vfs.mkdir path).2 := by
  unfold mkdir
  split
  · exact SameTargets.refl vfs
  · split <;> exact ⟨rfl, fun _ => rfl⟩

theorem createFile_sameTargets (vfs : VFS ρ F) (path : Str) (content : Bytes) :
    SameTargets vfs (vfs.createFile path content).2 := by
  unfold createFile
  split
  · exact SameTargets.refl vfs
  · split <;> exact ⟨rfl, fun _ => rfl⟩

theorem writePath_sameTargets (vfs : VFS ρ F) (path : Str) (data : Bytes) :
    SameTargets vfs (vfs.writePath path data).2 := by
  unfold writePath
  split
  · exact createFile_sameTargets vfs path data
  · exact ⟨rfl, fun _ => rfl⟩

theorem open_targets (vfs : VFS ρ F) (path flags : Str) :
    (SameTargets vfs (vfs.open_ path flags).2 ∧
        (vfs.open_ path flags).2.nextFd = vfs.nextFd) ∨
      ∃ ref ino, vfs.fsOf path = some ref ∧
        (vfs.open_ path flags).2.mounts = vfs.mounts ∧
        (vfs.open_ path flags).2.nextFd = vfs.nextFd + 1 ∧
        ∀ fd, (vfs.open_ path flags).2.fileOf fd =
          if fd = vfs.nextFd then some (path, ino) else vfs.fileOf fd := by
  have hadd : ∀ (vfs' : VFS ρ F) (ref : ρ) (inode : Inode) (fd : Int),
      vfs'.openFiles = vfs.openFiles → vfs'.nextFd = vfs.nextFd →
      (vfs'.addOpenFile path flags ref inode).fileOf fd =
        if fd = vfs.nextFd then some (path, inode.ino) else vfs.fileOf fd := by
    intro vfs' ref inode fd hfiles hnext
    unfold fileOf addOpenFile
    rw [hfiles, hnext, Dict.get?_set]
    split <;> rfl
  unfold open_
  cases hresolve : vfs.resolve? path with
  | none => exact Or.inl ⟨SameTargets.refl vfs, rfl⟩
  | some found =>
      obtain ⟨ref, ino⟩ := found
      have hfs : vfs.fsOf path = some ref := by
        rw [← resolvePath_fst, (resolve?_eq_some.mp hresolve).1]
      dsimp only
      split
      · exact Or.inl ⟨SameTargets.refl vfs, rfl⟩
      · split
        · split
          · exact Or.inr ⟨ref, _, hfs, rfl, rfl, fun fd => hadd _ ref _ fd rfl rfl⟩
          · exact Or.inr ⟨ref, _, hfs, rfl, rfl, fun fd => hadd _ ref _ fd rfl rfl⟩
          · exact Or.inl ⟨⟨rfl, fun _ => rfl⟩, rfl⟩
        · exact Or.inr ⟨ref, _, hfs, rfl, rfl, fun fd => hadd _ ref _ fd rfl rfl⟩

end Filesystem

/-! ## What a mount does to the filesystem of a path -/

/-- The new mount captures the path before the one that is chosen now, and it is of
another filesystem. -/
def Shadows (vfs : VFS ρ F) (mountpoint : Str) (fs : ρ) (path : Str) : Prop :=
  Captures '/' mountpoint path ∧ ∃ best, vfs.bestMount path = some best ∧ fs ≠ best.fs ∧
    (Captures '/' best.mountpoint path → best.mountpoint.length < mountpoint.length)

/-- After a mount the new one is chosen if it captures the path and is longer than the one
chosen before, or if nothing but the fallback was there. -/
theorem bestMount_mount {vfs : VFS ρ F} (hsorted : vfs.mounts.Pairwise MountPoint.LongerFirst)
    {path : Str} {best : MountPoint ρ} (hbest : vfs.bestMount path = some best)
    (mp : MountPoint ρ) :
    (vfs.mount mp.mountpoint mp.fs mp.source).bestMount path =
      if Captures '/' mp.mountpoint path ∧
          (Captures '/' best.mountpoint path → best.mountpoint.length < mp.mountpoint.length)
      then some mp else some best := by
  rw [bestMount, findMount_eq] at hbest ⊢
  change Option.or (((vfs.mounts ++ [mp]).insertionSort MountPoint.LongerFirst).find? _)
    (Option.or _ (((vfs.mounts ++ [mp]).insertionSort MountPoint.LongerFirst).find? _)) = _
  rw [StableSort.find?_insertionSort_concat hsorted,
    StableSort.find?_insertionSort_concat hsorted]
  cases hfound : vfs.mounts.find? fun mp => Captures '/' mp.mountpoint path with
  | some first =>
      have hcapture : Captures '/' first.mountpoint path := by
        simpa using List.find?_some hfound
      rw [hfound] at hbest
      obtain rfl : first = best := by simpa using hbest
      by_cases hmp : Captures '/' mp.mountpoint path
      · by_cases hlength : first.LongerFirst mp
        · have hnot : ¬ first.mountpoint.length < mp.mountpoint.length := Nat.not_lt.mpr hlength
          simp [Option.filter, hlength, hcapture, hnot]
        · have hlt : first.mountpoint.length < mp.mountpoint.length := Nat.lt_of_not_le hlength
          simp [Option.filter, hlength, hmp, hlt]
      · by_cases hlength : first.LongerFirst mp <;> simp [Option.filter, hlength, hmp]
  | none =>
      rw [hfound] at hbest
      have hroot : vfs.mounts.find? (fun mp => mp.mountpoint = ['/']) = some best := by
        simpa using hbest
      have hmem := List.mem_of_find?_eq_some hroot
      have hcapture : ¬ Captures '/' best.mountpoint path := by
        simpa using List.find?_eq_none.mp hfound best hmem
      have hrootPoint : best.mountpoint = ['/'] := by simpa using List.find?_some hroot
      rw [hroot]
      by_cases hmp : Captures '/' mp.mountpoint path
      · simp [hmp, hcapture]
      · -- another mount at `/` comes behind the one that is the fallback
        have hlast : mp.mountpoint = ['/'] → best.LongerFirst mp := by
          intro h
          exact Nat.le_of_eq (by rw [h, hrootPoint])
        by_cases hagain : mp.mountpoint = ['/']
        · simp [hmp, Option.filter, hlast hagain]
        · by_cases hlength : best.LongerFirst mp <;>
            simp [hmp, hagain, Option.filter, hlength]

theorem fsOf_mount_iff {vfs : VFS ρ F} (hsorted : vfs.mounts.Pairwise MountPoint.LongerFirst)
    {path : Str} {ref : ρ} (href : vfs.fsOf path = some ref) (mountpoint : Str) (fs : ρ)
    (source : Str) :
    (vfs.mount mountpoint fs source).fsOf path = some ref ↔
      ¬ vfs.Shadows mountpoint fs path := by
  obtain ⟨best, hbest, rfl⟩ := Option.map_eq_some_iff.mp href
  have hchosen := bestMount_mount hsorted hbest ⟨mountpoint, fs, source⟩
  dsimp only at hchosen
  unfold fsOf
  rw [hchosen]
  split
  · rename_i hcond
    rw [Option.map_some, Option.some.injEq]
    constructor
    · rintro hsame ⟨-, other, hother, hne, -⟩
      rw [hbest] at hother
      cases hother
      exact hne hsame
    · intro hnot
      by_contra hne
      exact hnot ⟨hcond.1, best, hbest, hne, hcond.2⟩
  · rename_i hcond
    rw [Option.map_some]
    refine iff_of_true rfl ?_
    rintro ⟨hcapture, other, hother, -, hlonger⟩
    rw [hbest] at hother
    cases hother
    exact hcond ⟨hcapture, hlonger⟩

/-! ## Calls -/

inductive Call (ρ : Type)
  | mount (mountpoint : Str) (fs : ρ) (source : Str)
  | open_ (path flags : Str)
  | mkdir (path : Str)
  | createFile (path : Str) (content : Bytes)
  | writePath (path : Str) (data : Bytes)
  | read (fd size : Int)
  | write (fd : Int) (data : Bytes)
  | close (fd : Int)

def perform [Filesystem F] [DecidableEq ρ] (vfs : VFS ρ F) : Call ρ → VFS ρ F
  | .mount mountpoint fs source => vfs.mount mountpoint fs source
  | .open_ path flags => (vfs.open_ path flags).2
  | .mkdir path => (vfs.mkdir path).2
  | .createFile path content => (vfs.createFile path content).2
  | .writePath path data => (vfs.writePath path data).2
  | .read fd size => (vfs.read fd size).2
  | .write fd data => (vfs.write fd data).2
  | .close fd => (vfs.close fd).2

end VFS

/-- A VFS, and for each descriptor the filesystem and inode number it was opened on. -/
structure Handles (ρ F : Type) where
  vfs : VFS ρ F
  home : Int → Option (ρ × Int)

namespace Handles

variable {ρ F : Type}

def start (filesystems : ρ → F) : Handles ρ F where
  vfs := VFS.init filesystems
  home _ := none

/-- The descriptor that a call hands out is recorded with the filesystem in which the call
looked the path up. -/
def record [Filesystem F] [DecidableEq ρ] (s : Handles ρ F) :
    VFS.Call ρ → Int → Option (ρ × Int)
  | .open_ path flags =>
      let vfs := (s.vfs.open_ path flags).2
      if vfs.nextFd = s.vfs.nextFd then s.home
      else Function.update s.home s.vfs.nextFd
        ((vfs.fileOf s.vfs.nextFd).bind fun (_, ino) =>
          (s.vfs.resolvePath path).1.map fun ref => (ref, ino))
  | _ => s.home

def step [Filesystem F] [DecidableEq ρ] (s : Handles ρ F) (call : VFS.Call ρ) :
    Handles ρ F where
  vfs := s.vfs.perform call
  home := s.record call

def AtHome (s : Handles ρ F) : Prop :=
  ∀ fd ∈ s.vfs.openFiles, s.vfs.target fd = s.home fd

def ShadowsNone (s : Handles ρ F) : VFS.Call ρ → Prop
  | .mount mountpoint fs _ => ∀ fd path ino, s.vfs.fileOf fd = some (path, ino) →
      ¬ s.vfs.Shadows mountpoint fs path
  | _ => True

structure Recorded (s : Handles ρ F) : Prop where
  sorted : s.vfs.mounts.Pairwise MountPoint.LongerFirst
  home : ∀ fd ∈ s.vfs.openFiles, ∃ file, s.home fd = some file

theorem mem_openFiles {vfs : VFS ρ F} {fd : Int} :
    fd ∈ vfs.openFiles ↔ ∃ file, vfs.fileOf fd = some file := by
  simp [VFS.fileOf, Dict.mem_iff_isSome, Option.isSome_iff_exists]

theorem recorded_start (filesystems : ρ → F) : (start filesystems).Recorded where
  sorted := List.Pairwise.nil
  home fd hfd := (Dict.not_mem_empty fd hfd).elim

theorem target_mount_iff {s : Handles ρ F} (h : s.Recorded) (hat : s.AtHome) {fd : Int}
    {path : Str} {ino : Int} (hfile : s.vfs.fileOf fd = some (path, ino)) (mountpoint : Str)
    (fs : ρ) (source : Str) :
    (s.vfs.mount mountpoint fs source).target fd = s.home fd ↔
      ¬ s.vfs.Shadows mountpoint fs path := by
  have hfd : fd ∈ s.vfs.openFiles := mem_openFiles.mpr ⟨_, hfile⟩
  obtain ⟨⟨ref, ino'⟩, hhome⟩ := h.home fd hfd
  have htarget := hat fd hfd
  rw [hhome, VFS.target_of_fileOf hfile] at htarget
  obtain ⟨ref', href, hsame⟩ := Option.map_eq_some_iff.mp htarget
  obtain ⟨rfl, rfl⟩ := Prod.mk.inj hsame
  rw [hhome, ← VFS.fsOf_mount_iff h.sorted href mountpoint fs source]
  have hfile' : (s.vfs.mount mountpoint fs source).fileOf fd = some (path, ino) := hfile
  rw [VFS.target_of_fileOf hfile']
  cases (s.vfs.mount mountpoint fs source).fsOf path with
  | none => simp
  | some ref => simp

section Step

variable [Filesystem F] [DecidableEq ρ]

inductive Effect (s : Handles ρ F) (call : VFS.Call ρ) : Prop
  | same (htargets : VFS.SameTargets s.vfs (s.step call).vfs)
      (hhome : (s.step call).home = s.home)
      (hcall : s.ShadowsNone call)
  | mount (mountpoint : Str) (fs : ρ) (source : Str)
      (hcall : call = .mount mountpoint fs source)
  | opened (fd : Int) (path : Str) (ino : Int) (ref : ρ)
      (hfs : s.vfs.fsOf path = some ref)
      (hmounts : (s.step call).vfs.mounts = s.vfs.mounts)
      (hfiles : ∀ other, (s.step call).vfs.fileOf other =
        if other = fd then some (path, ino) else s.vfs.fileOf other)
      (hhome : (s.step call).home = Function.update s.home fd (some (ref, ino)))
      (hcall : s.ShadowsNone call)
  | closed (fd : Int)
      (hmounts : (s.step call).vfs.mounts = s.vfs.mounts)
      (hfiles : ∀ other, (s.step call).vfs.fileOf other =
        if other = fd then none else s.vfs.fileOf other)
      (hhome : (s.step call).home = s.home)
      (hcall : s.ShadowsNone call)

theorem effect (s : Handles ρ F) (call : VFS.Call ρ) : Effect s call := by
  cases call with
  | mount mountpoint fs source => exact .mount mountpoint fs source rfl
  | mkdir path => exact .same (s.vfs.mkdir_sameTargets path) rfl trivial
  | createFile path content =>
      exact .same (s.vfs.createFile_sameTargets path content) rfl trivial
  | writePath path data => exact .same (s.vfs.writePath_sameTargets path data) rfl trivial
  | read fd size => exact .same (s.vfs.read_sameTargets fd size) rfl trivial
  | write fd data => exact .same (s.vfs.write_sameTargets fd data) rfl trivial
  | open_ path flags =>
      rcases s.vfs.open_targets path flags with
        ⟨htargets, hnext⟩ | ⟨ref, ino, hfs, hmounts, hnext, hfiles⟩
      · exact .same htargets (if_pos hnext) trivial
      · refine .opened s.vfs.nextFd path ino ref hfs hmounts hfiles ?_ trivial
        have hne : (s.vfs.open_ path flags).2.nextFd ≠ s.vfs.nextFd := by omega
        change s.record (.open_ path flags) = _
        simp only [record, if_neg hne, hfiles, if_true, Option.bind_some, VFS.resolvePath_fst,
          hfs, Option.map_some]
  | close fd =>
      refine .closed fd ?_ (fun other => ?_) rfl trivial
      · change (s.vfs.close fd).2.mounts = _
        unfold VFS.close
        split <;> rfl
      · change (s.vfs.close fd).2.fileOf other = _
        unfold VFS.close VFS.fileOf
        split
        · rename_i hfree
          split
          · rename_i hfd
            rw [hfd, hfree]
            rfl
          · rfl
        · rw [Dict.get?_erase]
          split <;> rfl

theorem recorded_step (s : Handles ρ F) (call : VFS.Call ρ) (h : s.Recorded) :
    (s.step call).Recorded := by
  cases effect s call with
  | same htargets hhome _ =>
      refine ⟨htargets.mounts ▸ h.sorted, fun fd hfd => ?_⟩
      rw [mem_openFiles, htargets.fileOf, ← mem_openFiles] at hfd
      rw [hhome]
      exact h.home fd hfd
  | mount mountpoint fs source hcall =>
      subst hcall
      exact ⟨List.pairwise_insertionSort _ _, h.home⟩
  | opened fd path ino ref _ hmounts hfiles hhome _ =>
      refine ⟨hmounts ▸ h.sorted, fun other hother => ?_⟩
      rw [mem_openFiles, hfiles] at hother
      rw [hhome]
      by_cases hfd : other = fd
      · rw [hfd, Function.update_self]
        exact ⟨(ref, ino), rfl⟩
      · rw [if_neg hfd, ← mem_openFiles] at hother
        rw [Function.update_of_ne hfd]
        exact h.home other hother
  | closed fd hmounts hfiles hhome _ =>
      refine ⟨hmounts ▸ h.sorted, fun other hother => ?_⟩
      rw [mem_openFiles, hfiles] at hother
      rw [hhome]
      apply h.home
      rw [mem_openFiles]
      split at hother
      · obtain ⟨file, hfile⟩ := hother
        cases hfile
      · exact hother

theorem atHome_step (s : Handles ρ F) (call : VFS.Call ρ) (h : s.Recorded) (hat : s.AtHome)
    (hcall : s.ShadowsNone call) : (s.step call).AtHome := by
  intro fd hfd
  cases effect s call with
  | same htargets hhome _ =>
      rw [mem_openFiles, htargets.fileOf, ← mem_openFiles] at hfd
      rw [VFS.target_congr htargets.mounts (htargets.fileOf fd), hhome]
      exact hat fd hfd
  | mount mountpoint fs source hmount =>
      subst hmount
      obtain ⟨⟨path, ino⟩, hfile⟩ := mem_openFiles.mp hfd
      have hfile : s.vfs.fileOf fd = some (path, ino) := hfile
      exact (target_mount_iff h hat hfile mountpoint fs source).mpr (hcall fd path ino hfile)
  | opened fd' path ino ref hfs hmounts hfiles hhome _ =>
      rw [hhome]
      by_cases hsame : fd = fd'
      · subst hsame
        have hfile := hfiles fd
        rw [if_pos rfl] at hfile
        rw [Function.update_self, VFS.target_of_fileOf hfile, VFS.fsOf_congr hmounts, hfs,
          Option.map_some]
      · have hfile := hfiles fd
        rw [if_neg hsame] at hfile
        rw [Function.update_of_ne hsame, VFS.target_congr hmounts hfile]
        apply hat
        rw [mem_openFiles, ← hfile, ← mem_openFiles]
        exact hfd
  | closed fd' hmounts hfiles hhome _ =>
      have hfile := hfiles fd
      by_cases hsame : fd = fd'
      · rw [if_pos hsame] at hfile
        obtain ⟨file, hopen⟩ := mem_openFiles.mp hfd
        rw [hfile] at hopen
        cases hopen
      · rw [if_neg hsame] at hfile
        rw [hhome, VFS.target_congr hmounts hfile]
        apply hat
        rw [mem_openFiles, ← hfile, ← mem_openFiles]
        exact hfd

theorem not_atHome_step (s : Handles ρ F) (call : VFS.Call ρ) (h : s.Recorded) (hat : s.AtHome)
    (hcall : ¬ s.ShadowsNone call) : ¬ (s.step call).AtHome := by
  intro hafter
  cases effect s call with
  | same _ _ hnone => exact hcall hnone
  | opened _ _ _ _ _ _ _ _ hnone => exact hcall hnone
  | closed _ _ _ _ hnone => exact hcall hnone
  | mount mountpoint fs source hmount =>
      subst hmount
      apply hcall
      intro fd path ino hfile
      apply (target_mount_iff h hat hfile mountpoint fs source).mp
      exact hafter fd (mem_openFiles.mpr ⟨_, hfile⟩)

/-- Every descriptor acts on the inode it was opened on throughout a run exactly when no
mount of the run shadows the path of a descriptor that is open at the time. -/
theorem always_atHome_iff (filesystems : ρ → F) (calls : List (VFS.Call ρ)) :
    (Run.Always step AtHome (start filesystems) calls ↔
      Run.Guarded step ShadowsNone (start filesystems) calls) ∧
    ∀ (vfs : VFS ρ F) (fd : Int) (ref : ρ) (ino : Int),
      vfs.target fd = some (ref, ino) → vfs.ActsOn fd ref ino := by
  constructor
  · exact Run.always_iff_guarded_of_invariant recorded_step
      (fun s call h hat => atHome_step s call h hat)
      (fun s call h hat => not_atHome_step s call h hat) (recorded_start filesystems)
      fun fd hfd => (Dict.not_mem_empty fd hfd).elim
  · exact fun vfs fd ref ino htarget => VFS.actsOn_of_target htarget

end Step

/-- A filesystem mounted over `/mnt` takes over a descriptor opened below, which then reads
the bytes of the inode with the same number there. -/
theorem mount_takes_descriptor :
    let calls : List (VFS.Call Bool) :=
      [.mount "/".toList false "none".toList, .mkdir "/mnt".toList,
        .createFile "/mnt/f".toList [1], .open_ "/mnt/f".toList "r".toList,
        .mount "/mnt".toList true "none".toList, .createFile "/mnt/a".toList [2],
        .createFile "/mnt/b".toList [3]]
    let s := Run.run step (start fun _ => TmpFS.init) calls
    ¬ Run.Always step AtHome (start fun _ => TmpFS.init) calls ∧
    s.home 3 = some (false, 3) ∧ (s.vfs.read 3 1).1 = [3] := by
  intro calls s
  refine ⟨?_, by decide, by decide⟩
  intro h
  have hend : s.AtHome := Run.always_iff_prefixes.mp h calls (List.prefix_refl calls)
  have htarget := hend 3 (by decide)
  exact absurd htarget (by decide)

end Handles

end ComputeKernel.Vfs
