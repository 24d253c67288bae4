import ComputeKernel.Fs.Persistence
import ComputeKernel.Vfs.Names

/-!
# Files persist

Whatever is asked of a VFS or of its drivers, a path that leads to an inode goes on to lead
there as long as nothing is mounted.  The file is never cut short, and a directory only gets
new names behind the old ones.
-/

namespace ComputeKernel.Vfs

open Lib Lib.Run Fs

namespace VFS

variable {ρ : Type}

structure Lasts (vfs vfs' : VFS ρ Volume) : Prop where
  mounts : vfs'.mounts = vfs.mounts
  volumes : ∀ ref, (vfs.filesystems ref).Lasts (vfs'.filesystems ref)

theorem names_congr {vfs vfs' : VFS ρ Volume} (h : vfs'.mounts = vfs.mounts) (path : Str) :
    vfs'.names path = vfs.names path := by
  unfold names bestMount
  rw [h]

theorem walk_of_lasts {v v' : Volume} (h : v.Lasts v') {parts : List Str} {ino ino' : Int}
    (hwalk : walk v ino parts = some ino') : walk v' ino parts = some ino' := by
  induction parts generalizing ino with
  | nil => exact hwalk
  | cons part parts ih =>
      unfold walk at hwalk ⊢
      rw [Volume.lookupName_eq] at hwalk ⊢
      cases hname : v.inodes.lookupName ino part with
      | none =>
          rw [hname] at hwalk
          cases hwalk
      | some child =>
          obtain ⟨child', hname', hino⟩ := h.inodes.lookupName hname
          rw [hname] at hwalk
          rw [hname']
          dsimp only at hwalk ⊢
          rw [hino]
          exact ih hwalk

namespace Lasts

variable {vfs vfs' : VFS ρ Volume} {path : Str} {ref : ρ} {ino : Int}

theorem resolve? (h : Lasts vfs vfs') (hpath : vfs.resolve? path = some (ref, ino)) :
    vfs'.resolve? path = some (ref, ino) := by
  obtain ⟨hino, names, hnames, hwalk⟩ := resolve?_iff_names.mp hpath
  refine resolve?_iff_names.mpr ⟨hino, names, ?_, ?_⟩
  · rw [names_congr h.mounts]
    exact hnames
  · rw [(h.volumes ref).root]
    exact walk_of_lasts (h.volumes ref) hwalk

theorem stat (h : Lasts vfs vfs') {inode : Inode} (hstat : vfs.stat path = some inode) :
    ∃ inode', vfs'.stat path = some inode' ∧ inode.Lasts inode' := by
  unfold VFS.stat at hstat ⊢
  cases hpath : vfs.resolve? path with
  | none =>
      rw [hpath] at hstat
      cases hstat
  | some found =>
      obtain ⟨ref, ino⟩ := found
      rw [hpath] at hstat
      rw [h.resolve? hpath]
      dsimp only at hstat ⊢
      rw [Volume.lookup_eq] at hstat ⊢
      exact (h.volumes ref).inodes ino inode hstat

theorem readdir (h : Lasts vfs vfs') (path : Str) : vfs.readdir path <+: vfs'.readdir path := by
  unfold VFS.readdir
  cases hpath : vfs.resolve? path with
  | none => exact List.nil_prefix
  | some found =>
      obtain ⟨ref, ino⟩ := found
      rw [h.resolve? hpath]
      dsimp only
      rw [Volume.readdir_eq, Volume.readdir_eq]
      exact (h.volumes ref).inodes.readdir ino

end Lasts

/-! ## Requests -/

variable [DecidableEq ρ]

def Request.IsMount : Request ρ → Prop
  | .call (.mount _ _ _) => True
  | _ => False

theorem mounts_serve (vfs : VFS ρ Volume) {request : Request ρ} (h : ¬ request.IsMount) :
    (vfs.serve request).mounts = vfs.mounts := by
  cases request with
  | driver ref op => rfl
  | call call =>
      cases call with
      | mount mountpoint fs source => exact absurd trivial h
      | open_ path flags =>
          rcases vfs.open_targets path flags with ⟨htargets, -⟩ | ⟨-, -, -, hmounts, -⟩
          · exact htargets.mounts
          · exact hmounts
      | mkdir path => exact (vfs.mkdir_sameTargets path).mounts
      | createFile path content => exact (vfs.createFile_sameTargets path content).mounts
      | writePath path data => exact (vfs.writePath_sameTargets path data).mounts
      | read fd size => exact (vfs.read_sameTargets fd size).mounts
      | write fd data => exact (vfs.write_sameTargets fd data).mounts
      | close fd =>
          change (vfs.close fd).2.mounts = vfs.mounts
          unfold VFS.close
          split
          · rfl
          · rfl

/-- All volumes are settled, and none has lost anything that it had at the start. -/
def Settled (start vfs : VFS ρ Volume) : Prop :=
  ∀ ref, (vfs.filesystems ref).Settled ∧ (start.filesystems ref).Lasts (vfs.filesystems ref)

theorem settled_serve (start vfs : VFS ρ Volume) (request : Request ρ) (h : Settled start vfs) :
    Settled start (vfs.serve request) := by
  cases request with
  | call call =>
      exact keeps_perform (fun ref => Volume.keeps_lasts (start.filesystems ref)) h call
  | driver ref op =>
      intro other
      have hstep := Volume.safe_step (vfs.filesystems ref) op (h ref).1
      exact keeps_setFs (P := fun ref v => v.Settled ∧ (start.filesystems ref).Lasts v)
        (fun ref => h ref) ref (hstep.imp_right (h ref).2.trans) other

/-- Once something has been created on each ext2 volume, nothing is lost in any run of requests
that mounts nothing: a path that leads to an inode goes on to lead there, the inode keeps its
number, its type and at least its bytes, and what was listed is still listed first. -/
theorem nothing_lost (kinds : ρ → Volume.Kind) (setup later : List (Request ρ)) :
    let vfs := served kinds setup
    let vfs' := run serve vfs later
    (∀ ref fs, vfs.filesystems ref = .ext2 fs → fs.nextIno ≠ 2) →
    (∀ request ∈ later, ¬ request.IsMount) → ∀ path,
      (∀ inode, vfs.stat path = some inode →
        ∃ inode', vfs'.stat path = some inode' ∧ inode.Lasts inode') ∧
      vfs.readdir path <+: vfs'.readdir path := by
  intro vfs vfs' hext2 hlater path
  have hstart : Settled vfs vfs := fun ref =>
    ⟨(arranged_served kinds setup ref).settled (hext2 ref), Volume.Lasts.refl _⟩
  have hend : vfs'.mounts = vfs.mounts ∧ Settled vfs vfs' := by
    apply run_of_guarded (P := fun v : VFS ρ Volume => v.mounts = vfs.mounts ∧ Settled vfs v)
      (G := fun _ request => ¬ request.IsMount)
    · intro v request h hrequest
      exact ⟨(mounts_serve v hrequest).trans h.1, settled_serve vfs v request h.2⟩
    · exact ⟨rfl, hstart⟩
    · exact guarded_of_forall (fun request hrequest _ => hlater request hrequest) vfs
  have hlasts : Lasts vfs vfs' := ⟨hend.1, fun ref => (hend.2 ref).2⟩
  exact ⟨fun inode hstat => hlasts.stat hstat, hlasts.readdir path⟩

/-- The setup makes an ext2 volume, which a creation settles, and a file on it. -/
theorem nothing_lost_disk :
    let vfs := served (fun disk => if disk then .ext2 "disk".toList else .tmpfs)
      [.driver true (.mkdir 2 "lost".toList), .call (.mount "/".toList false "tmpfs".toList),
        .call (.mount "/disk".toList true "/dev/sda".toList),
        .call (.createFile "/disk/notes".toList [1, 2, 3])]
    let vfs' := run serve vfs
      [.driver true (.write 3 0 [4]), .call (.writePath "/disk/notes".toList [5, 6]),
        .call (.mkdir "/disk/notes".toList), .call (.mkdir "/disk/old".toList)]
    (∃ inode', vfs'.stat "/disk/notes".toList = some inode' ∧ 3 ≤ inode'.data.length) ∧
      [(".".toList, 2), ("..".toList, 2), ("notes".toList, 3)] <+:
        vfs'.readdir "/disk".toList := by
  intro vfs vfs'
  have hdata : (vfs.stat "/disk/notes".toList).map (·.data) = some [1, 2, 3] := by decide
  obtain ⟨inode, hstat, hinode⟩ := Option.map_eq_some_iff.mp hdata
  have hext2 : ∀ ref fs, vfs.filesystems ref = .ext2 fs → fs.nextIno ≠ 2 := by
    intro ref fs hfs
    cases ref with
    | false => cases hfs
    | true =>
        cases hfs
        decide
  have hlater : ∀ request ∈ [Request.driver true (.write 3 0 [4]),
      .call (.writePath "/disk/notes".toList [5, 6]), .call (.mkdir "/disk/notes".toList),
      .call (.mkdir "/disk/old".toList)], ¬ request.IsMount := by
    simp [Request.IsMount]
  have hlost := nothing_lost _ _ _ hext2 hlater
  obtain ⟨inode', hstat', hlasts⟩ := (hlost "/disk/notes".toList).1 inode hstat
  have hlength := hlasts.data
  rw [hinode] at hlength
  exact ⟨⟨inode', hstat', hlength⟩, (hlost "/disk".toList).2⟩

end VFS

end ComputeKernel.Vfs
