import ComputeKernel.Fs.TmpFS
import ComputeKernel.Vfs.VFS

/-!
# Descriptors

What the four descriptor operations do to the open-file table.  Each of them
works on one descriptor, `open_` on a new one.
-/

namespace ComputeKernel.Vfs.VFS

open Lib Fs

variable {ρ F : Type}

def SameExcept (fd : Int) (vfs vfs' : VFS ρ F) : Prop :=
  ∀ other, other ≠ fd → vfs'.openFiles.get? other = vfs.openFiles.get? other

theorem SameExcept.refl (fd : Int) (vfs : VFS ρ F) : SameExcept fd vfs vfs :=
  fun _ _ => rfl

theorem advance_sameExcept (vfs : VFS ρ F) (fd n : Int) :
    SameExcept fd vfs (vfs.advance fd n) :=
  fun _ hother => Dict.get?_modify_of_ne _ _ hother

theorem read_cases [Filesystem F] (vfs : VFS ρ F) (fd size : Int) :
    (vfs.read fd size).2 = vfs ∨ ∃ n, (vfs.read fd size).2 = vfs.advance fd n := by
  unfold read
  cases vfs.openFiles.get? fd with
  | none => exact Or.inl rfl
  | some file =>
      dsimp only
      cases (vfs.resolvePath file.path).1 with
      | none => exact Or.inl rfl
      | some ref => exact Or.inr ⟨_, rfl⟩

theorem close_sameExcept (vfs : VFS ρ F) (fd : Int) : SameExcept fd vfs (vfs.close fd).2 := by
  unfold close
  cases vfs.openFiles.get? fd with
  | none => exact SameExcept.refl fd vfs
  | some file => exact fun _ hother => Dict.get?_erase_of_ne _ hother

theorem close_nextFd (vfs : VFS ρ F) (fd : Int) : (vfs.close fd).2.nextFd = vfs.nextFd := by
  unfold close
  cases vfs.openFiles.get? fd with
  | none => rfl
  | some file => rfl

theorem mkdir_nextFd [Filesystem F] [DecidableEq ρ] (vfs : VFS ρ F) (path : Str) :
    (vfs.mkdir path).2.nextFd = vfs.nextFd := by
  unfold mkdir
  split
  · rfl
  · split
    · rfl
    · rfl

theorem createFile_nextFd [Filesystem F] [DecidableEq ρ] (vfs : VFS ρ F) (path : Str)
    (content : Bytes) : (vfs.createFile path content).2.nextFd = vfs.nextFd := by
  unfold createFile
  split
  · rfl
  · split
    · rfl
    · rfl

theorem writePath_nextFd [Filesystem F] [DecidableEq ρ] (vfs : VFS ρ F) (path : Str)
    (data : Bytes) : (vfs.writePath path data).2.nextFd = vfs.nextFd := by
  unfold writePath
  split
  · exact createFile_nextFd vfs path data
  · rfl

theorem read_sameExcept [Filesystem F] (vfs : VFS ρ F) (fd size : Int) :
    SameExcept fd vfs (vfs.read fd size).2 := by
  rcases read_cases vfs fd size with hread | ⟨n, hread⟩
  · rw [hread]
    exact SameExcept.refl fd vfs
  · rw [hread]
    exact advance_sameExcept vfs fd n

theorem read_nextFd [Filesystem F] (vfs : VFS ρ F) (fd size : Int) :
    (vfs.read fd size).2.nextFd = vfs.nextFd := by
  rcases read_cases vfs fd size with hread | ⟨n, hread⟩
  · rw [hread]
  · rw [hread]
    rfl

theorem mem_openFiles_read [Filesystem F] (vfs : VFS ρ F) (fd size other : Int) :
    other ∈ (vfs.read fd size).2.openFiles ↔ other ∈ vfs.openFiles := by
  rcases read_cases vfs fd size with hread | ⟨n, hread⟩
  · rw [hread]
  · rw [hread]
    exact Dict.mem_modify

theorem mem_openFiles_close (vfs : VFS ρ F) (fd other : Int) :
    other ∈ (vfs.close fd).2.openFiles ↔ other ≠ fd ∧ other ∈ vfs.openFiles := by
  unfold close
  cases hfile : vfs.openFiles.get? fd with
  | none =>
      have hclosed := Dict.get?_eq_none.mp hfile
      refine (and_iff_right_of_imp ?_).symm
      rintro hopen rfl
      exact hclosed hopen
  | some file => exact Dict.mem_erase

/-! ## Paths and flags of open files -/

def Opened (vfs : VFS ρ F) (fd : Int) (path flags : Str) : Prop :=
  ∃ file, vfs.openFiles.get? fd = some file ∧ file.path = path ∧ file.flags = flags

theorem Opened.of_get? {vfs vfs' : VFS ρ F} {fd : Int} {path flags : Str}
    (h : vfs.Opened fd path flags)
    (hsame : vfs'.openFiles.get? fd = vfs.openFiles.get? fd) : vfs'.Opened fd path flags := by
  unfold Opened
  rw [hsame]
  exact h

theorem Opened.advance {vfs : VFS ρ F} {fd : Int} {path flags : Str}
    (h : vfs.Opened fd path flags) (moved n : Int) :
    (vfs.advance moved n).Opened fd path flags := by
  obtain ⟨file, hfile, hpath, hflags⟩ := h
  refine ⟨_, (Dict.get?_modify_eq_map _ _ _ _).trans (congrArg (Option.map _) hfile), ?_⟩
  split
  · exact ⟨hpath, hflags⟩
  · exact ⟨hpath, hflags⟩

theorem Opened.read [Filesystem F] {vfs : VFS ρ F} {fd : Int} {path flags : Str}
    (h : vfs.Opened fd path flags) (other size : Int) :
    (vfs.read other size).2.Opened fd path flags := by
  rcases read_cases vfs other size with hread | ⟨n, hread⟩
  · rw [hread]
    exact h
  · rw [hread]
    exact h.advance other n

theorem opened_addOpenFile [Filesystem F] (vfs : VFS ρ F) (path flags : Str) (ref : ρ)
    (inode : Inode) : (vfs.addOpenFile path flags ref inode).Opened vfs.nextFd path flags :=
  ⟨_, Dict.get?_set_self _ _ _, rfl, rfl⟩

/-! ## Writing and opening on tmpfs -/

section TmpFS

variable [DecidableEq ρ]

theorem tmpfs_write_cases (fs : TmpFS) (ino offset : Int) (data : Bytes) :
    (Filesystem.write fs ino offset data).1 = data.length ∨
      ((Filesystem.write fs ino offset data).1 < 0 ∧
        (Filesystem.write fs ino offset data).2 = fs) := by
  rcases InodeTable.write_cases (-2) fs.inodes ino offset data with
    ⟨_, _, _, hwrite⟩ | ⟨-, hsame, hcode⟩
  · exact Or.inl (congrArg Prod.fst hwrite)
  · refine Or.inr ⟨?_, congrArg (fun inodes => { fs with inodes := inodes }) hsame⟩
    change (InodeTable.write (-2) fs.inodes ino offset data).1 < 0
    omega

theorem write_cases (vfs : VFS ρ TmpFS) (fd : Int) (data : Bytes) :
    ((vfs.write fd data).1 < 0 ∧ (vfs.write fd data).2 = vfs) ∨
      ((vfs.write fd data).1 = data.length ∧ ∃ ref fs,
        (vfs.write fd data).2 = vfs.setFs ref fs ∨
          ∃ n, (vfs.write fd data).2 = (vfs.setFs ref fs).advance fd n) := by
  unfold write
  cases vfs.openFiles.get? fd with
  | none => exact Or.inl ⟨by simp, rfl⟩
  | some file =>
      dsimp only
      cases (vfs.resolvePath file.path).1 with
      | none => exact Or.inl ⟨by simp, rfl⟩
      | some ref =>
          rcases tmpfs_write_cases (vfs.filesystems ref) file.ino file.position data with
            hlength | ⟨hneg, hsame⟩
          · refine Or.inr ⟨hlength, ref,
              (Filesystem.write (vfs.filesystems ref) file.ino file.position data).2, ?_⟩
            dsimp only
            split
            · exact Or.inr ⟨_, rfl⟩
            · exact Or.inl rfl
          · refine Or.inl ⟨hneg, ?_⟩
            dsimp only
            rw [if_neg (Int.not_lt.mpr (Int.le_of_lt hneg)), hsame, setFs_self]

theorem write_sameExcept (vfs : VFS ρ TmpFS) (fd : Int) (data : Bytes) :
    SameExcept fd vfs (vfs.write fd data).2 := by
  rcases write_cases vfs fd data with ⟨-, hsame⟩ | ⟨-, ref, fs, hwrite | ⟨n, hwrite⟩⟩
  · rw [hsame]
    exact SameExcept.refl fd vfs
  · rw [hwrite]
    exact SameExcept.refl fd vfs
  · rw [hwrite]
    exact advance_sameExcept (vfs.setFs ref fs) fd n

theorem write_nextFd (vfs : VFS ρ TmpFS) (fd : Int) (data : Bytes) :
    (vfs.write fd data).2.nextFd = vfs.nextFd := by
  rcases write_cases vfs fd data with ⟨-, hsame⟩ | ⟨-, ref, fs, hwrite | ⟨n, hwrite⟩⟩
  · rw [hsame]
  · rw [hwrite]
    rfl
  · rw [hwrite]
    rfl

theorem mem_openFiles_write (vfs : VFS ρ TmpFS) (fd : Int) (data : Bytes) (other : Int) :
    other ∈ (vfs.write fd data).2.openFiles ↔ other ∈ vfs.openFiles := by
  rcases write_cases vfs fd data with ⟨-, hsame⟩ | ⟨-, ref, fs, hwrite | ⟨n, hwrite⟩⟩
  · rw [hsame]
  · rw [hwrite]
    rfl
  · rw [hwrite]
    exact Dict.mem_modify

theorem Opened.write {vfs : VFS ρ TmpFS} {fd : Int} {path flags : Str}
    (h : vfs.Opened fd path flags) (other : Int) (data : Bytes) :
    (vfs.write other data).2.Opened fd path flags := by
  rcases write_cases vfs other data with ⟨-, hsame⟩ | ⟨-, ref, fs, hwrite | ⟨n, hwrite⟩⟩
  · rw [hsame]
    exact h
  · rw [hwrite]
    exact h
  · rw [hwrite]
    have hset : (vfs.setFs ref fs).Opened fd path flags := h
    exact hset.advance other n

theorem tmpfs_create_cases {fs : TmpFS} {ino : Int} {inode : Inode}
    (hlookup : Filesystem.lookup fs ino = some inode) (hdir : inode.itype = .dir) (name : Str)
    (itype : InodeType) :
    (∃ child fs', Filesystem.create fs ino name itype = (.ok child, fs')) ∨
      ∃ message, Filesystem.create fs ino name itype =
        (.error (.fileExistsError message), fs) := by
  have hlookup : fs.inodes.get? ino = some inode := hlookup
  cases herror : InodeTable.createError "tmpfs".toList fs.inodes ino name with
  | none => exact Or.inl ⟨_, _, TmpFS.create_of_none herror itype⟩
  | some error =>
      have hcreate := TmpFS.create_of_error herror itype
      simp only [InodeTable.createError, hlookup, hdir, ne_eq, not_true, if_false] at herror
      split at herror
      · cases herror
        exact Or.inr ⟨_, hcreate⟩
      · cases herror

/-- Opening finds nothing, or hands out the next descriptor.  A name is only created in
a directory that was looked up, so the creation raises nothing that is not caught. -/
theorem open_cases (vfs : VFS ρ TmpFS) (path flags : Str) :
    (vfs.stat path = none ∧ vfs.open_ path flags = (.ok (-2), vfs)) ∨
      ((vfs.stat path).isSome ∧ ∃ ref fs inode, vfs.open_ path flags =
        (.ok vfs.nextFd, (vfs.setFs ref fs).addOpenFile path flags ref inode)) := by
  unfold open_ stat
  cases vfs.resolve? path with
  | none => exact Or.inl ⟨rfl, rfl⟩
  | some target =>
      rcases target with ⟨ref, ino⟩
      dsimp only
      cases hlookup : Filesystem.lookup (vfs.filesystems ref) ino with
      | none => exact Or.inl ⟨rfl, rfl⟩
      | some inode =>
          refine Or.inr ⟨rfl, ?_⟩
          dsimp only
          split
          · rename_i hdir
            rcases tmpfs_create_cases hlookup hdir.2 (baseName path) .file with
              ⟨child, fs, hcreate⟩ | ⟨message, hcreate⟩
            · exact ⟨ref, fs, child, by rw [hcreate]⟩
            · exact ⟨ref, vfs.filesystems ref, _, by rw [hcreate]⟩
          · refine ⟨ref, vfs.filesystems ref, inode, ?_⟩
            rw [setFs_self]

end TmpFS

end ComputeKernel.Vfs.VFS
