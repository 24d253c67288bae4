import ComputeKernel.Vfs.Creation
import ComputeKernel.Vfs.Descriptors

/-!
# Opening paths

A path that names no inode is not created.  A path that names a directory, opened for
writing, gives a descriptor of a file inside the directory that is named like it.
-/

namespace ComputeKernel.Vfs.VFS

open Lib Lib.Path Lib.Run Lib.Tree Fs

/-! ## Calls on one tmpfs -/

inductive Action
  | create (op : Op)
  | open_ (path flags : Str)
  | read (fd size : Int)
  | write (fd : Int) (data : Bytes)
  | close (fd : Int)
  | driver (op : TmpFS.Op)

def act (vfs : VFS Unit TmpFS) : Action → VFS Unit TmpFS
  | .create op => vfs.step op
  | .open_ path flags => (vfs.open_ path flags).2
  | .read fd size => (vfs.read fd size).2
  | .write fd data => (vfs.write fd data).2
  | .close fd => (vfs.close fd).2
  | .driver op => vfs.setFs () ((vfs.filesystems ()).step op)

def Writes (flags : Str) : Prop :=
  'w' ∈ flags ∨ 'a' ∈ flags

instance (flags : Str) : Decidable (Writes flags) :=
  inferInstanceAs (Decidable (_ ∨ _))

def Creatable (vfs : VFS Unit TmpFS) (path : Str) : Prop :=
  Normalized '/' path ∧ vfs.stat path = none ∧
    ∃ dir, vfs.stat (directoryOf path) = some dir ∧ dir.itype = .dir

/-- `result` is that of opening `path`: a new descriptor has the inode that the path names
now, a path that can be created was created if the flags ask for writing, and no other
entry was. -/
structure OpensRight (vfs : VFS Unit TmpFS) (path flags : Str)
    (result : Except FsError Int × VFS Unit TmpFS) : Prop where
  agrees : ∀ fd, result.1 = .ok fd → 3 ≤ fd → ∃ file inode,
    result.2.openFiles.get? fd = some file ∧ result.2.stat path = some inode ∧
      file.ino = inode.ino
  creates : Writes flags → vfs.Creatable path → ∃ fd inode,
    result.1 = .ok fd ∧ 3 ≤ fd ∧ result.2.stat path = some inode ∧ inode.itype = .file
  elsewhere : ∀ d name b, (result.2.filesystems ()).inodes.Entry d name b →
    (vfs.filesystems ()).inodes.Entry d name b ∨ ∃ init,
      components '/' path = init ++ [name] ∧ Walk (vfs.filesystems ()).inodes.Entry 1 init d

/-- The flags do not ask for writing, or the path names something else than a directory, or
it names nothing and cannot be created. -/
def PlainOpen (vfs : VFS Unit TmpFS) (path flags : Str) : Prop :=
  ¬ Writes flags ∨ (∃ inode, vfs.stat path = some inode ∧ inode.itype ≠ .dir) ∨
    (vfs.stat path = none ∧ ¬ vfs.Creatable path)

/-! ## One call -/

namespace Rooted

variable {vfs : VFS Unit TmpFS}

theorem of_same (h : Rooted vfs) {vfs' : VFS Unit TmpFS} (hmounts : vfs'.mounts = vfs.mounts)
    (hfs : vfs'.filesystems () = vfs.filesystems ()) : Rooted vfs' where
  mounts := by
    rw [hmounts]
    exact h.mounts
  inv := by
    rw [hfs]
    exact h.inv

theorem create_in_dir (h : Rooted vfs) {dir : Inode}
    (hdir : (vfs.filesystems ()).inodes.get? dir.ino = some dir) (htype : dir.itype = .dir)
    (name : Str) :
    ∃ (child : Inode) (fs : TmpFS), child.ino ≠ dir.ino ∧ TmpFS.Inv fs ∧
      fs.lookup child.ino = some child ∧
      (∀ labels b, Walk (vfs.filesystems ()).inodes.Entry 1 labels b →
        Walk fs.inodes.Entry 1 labels b) ∧
      (Filesystem.create (vfs.filesystems ()) dir.ino name .file = (.ok child, fs) ∨
        ∃ message, Filesystem.create (vfs.filesystems ()) dir.ino name .file =
          (.error (.fileExistsError message), fs) ∧
          Filesystem.lookupName fs dir.ino name = some child) := by
  cases herror : InodeTable.createError "tmpfs".toList (vfs.filesystems ()).inodes dir.ino name with
  | none =>
      obtain ⟨hcreate, hgrown⟩ := h.inv.grown_create herror .file
      refine ⟨_, _, ?_, hgrown.inv, hgrown.lookup, ?_, Or.inl hcreate⟩
      · intro hsame
        exact hgrown.fresh (hsame ▸ Dict.mem_of_get? hdir)
      · intro labels b hwalk
        rw [hgrown.entry]
        exact (walk_addLeaf h.inv.tree hgrown.fresh h.inv.tree.root_node).mpr (Or.inl hwalk)
  | some error =>
      have hcreate := TmpFS.create_of_error herror .file
      simp only [InodeTable.createError, hdir, htype, ne_eq, not_true, if_false] at herror
      split at herror
      · rename_i hname
        cases herror
        -- the entry leads to another inode than the directory itself
        obtain ⟨ino, hino⟩ := Dict.mem_iff_exists.mp hname
        have hentry : (vfs.filesystems ()).inodes.Entry dir.ino name ino := ⟨dir, hdir, hino⟩
        obtain ⟨child, hchild⟩ := Dict.mem_iff_exists.mp (h.inv.tree.target hentry)
        obtain rfl := (h.inv.keyed hchild).1
        refine ⟨child, vfs.filesystems (), ?_, h.inv, hchild, fun labels b hwalk => hwalk,
          Or.inr ⟨_, hcreate, h.inv.lookupName_eq_some.mpr ⟨hentry, hchild⟩⟩⟩
        intro hsame
        rw [hsame] at hentry
        have hloop : [name] = [] := h.inv.tree.acyclic (.cons hentry (.nil dir.ino))
        cases hloop
      · cases herror

/-- Opening finds nothing, or it opens the inode of the path, or in a directory opened for
writing it opens another inode than the one that the path still names. -/
theorem open_spec (h : Rooted vfs) (path flags : Str) :
    (vfs.stat path = none ∧ vfs.open_ path flags = (.ok (-2), vfs)) ∨
    (∃ inode, vfs.stat path = some inode ∧ ¬ (Writes flags ∧ inode.itype = .dir) ∧
      vfs.open_ path flags = (.ok vfs.nextFd, vfs.addOpenFile path flags () inode)) ∨
    ∃ dir dir' child fs, vfs.stat path = some dir ∧ Writes flags ∧ dir.itype = .dir ∧
      vfs.open_ path flags =
        (.ok vfs.nextFd, (vfs.setFs () fs).addOpenFile path flags () child) ∧
      Rooted (vfs.setFs () fs) ∧ (vfs.setFs () fs).stat path = some dir' ∧
      child.ino ≠ dir'.ino ∧ fs.lookup child.ino = some child ∧
      fs = ((vfs.filesystems ()).create dir.ino (baseName path) .file).2 := by
  cases hstat : vfs.stat path with
  | none =>
      refine Or.inl ⟨rfl, ?_⟩
      unfold stat at hstat
      unfold open_
      split at hstat
      · rfl
      · dsimp only
        rw [hstat]
  | some inode =>
      obtain ⟨hwalk, hlookup⟩ := h.stat_drop.mp hstat
      have hresolve := (h.resolve?_drop path inode.ino).mpr hwalk
      have hlookup' : Filesystem.lookup (vfs.filesystems ()) inode.ino = some inode := hlookup
      by_cases hdir : ('w' ∈ flags ∨ 'a' ∈ flags) ∧ inode.itype = .dir
      · obtain ⟨child, fs, hne, hinv, hchild, hwalks, hcreate⟩ :=
          h.create_in_dir hlookup hdir.2 (baseName path)
        have hrooted := h.setFs hinv
        have hnew : (vfs.setFs () fs).filesystems () = fs := by simp [VFS.setFs]
        have hthere := hwalks _ _ hwalk
        obtain ⟨dir', hget⟩ := Dict.mem_iff_exists.mp
          (hinv.tree.walk_node hthere hinv.tree.root_node)
        have hino := (hinv.keyed hget).1
        have hstat' : (vfs.setFs () fs).stat path = some dir' := by
          rw [hrooted.stat_drop, hnew, hino]
          exact ⟨hthere, hget⟩
        have hfs : fs = ((vfs.filesystems ()).create inode.ino (baseName path) .file).2 := by
          rcases hcreate with hcreate | ⟨message, hcreate, -⟩
          · exact (congrArg Prod.snd hcreate).symm
          · exact (congrArg Prod.snd hcreate).symm
        refine Or.inr (Or.inr ⟨inode, dir', child, fs, rfl, hdir.1, hdir.2, ?_, hrooted, hstat',
          by rwa [hino], hchild, hfs⟩)
        unfold open_
        rw [hresolve]
        dsimp only
        rw [hlookup']
        dsimp only
        rw [if_pos hdir]
        rcases hcreate with hcreate | ⟨message, hcreate, hname⟩
        · rw [hcreate]
        · rw [hcreate]
          dsimp only
          rw [hname, Option.getD_some]
      · refine Or.inr (Or.inl ⟨inode, rfl, hdir, ?_⟩)
        unfold open_
        rw [hresolve]
        dsimp only
        rw [hlookup']
        exact if_neg hdir

theorem open_ (h : Rooted vfs) (path flags : Str) : Rooted (vfs.open_ path flags).2 := by
  rcases h.open_spec path flags with ⟨-, hopen⟩ | ⟨inode, -, -, hopen⟩ |
    ⟨dir, dir', child, fs, -, -, -, hopen, hrooted, -⟩
  · rw [hopen]
    exact h
  · rw [hopen]
    exact h.of_same rfl rfl
  · rw [hopen]
    exact hrooted.of_same rfl rfl

theorem read (h : Rooted vfs) (fd size : Int) : Rooted (vfs.read fd size).2 := by
  rcases read_cases vfs fd size with hread | ⟨n, hread⟩
  · rw [hread]
    exact h
  · rw [hread]
    exact h.of_same rfl rfl

theorem write (h : Rooted vfs) (fd : Int) (data : Bytes) : Rooted (vfs.write fd data).2 := by
  unfold VFS.write
  split
  · exact h
  · rename_i file _
    split
    · exact h
    · have hstored := h.setFs (h.inv.write file.ino file.position data)
      dsimp only
      split
      · exact hstored.of_same rfl rfl
      · exact hstored

theorem close (h : Rooted vfs) (fd : Int) : Rooted (vfs.close fd).2 := by
  unfold VFS.close
  split
  · exact h
  · exact h.of_same rfl rfl

end Rooted

/-! ## Runs -/

structure Ready (vfs : VFS Unit TmpFS) : Prop where
  rooted : Rooted vfs
  nextFd : 3 ≤ vfs.nextFd

theorem ready_rootVfs (source : Str) : Ready (rootVfs source) where
  rooted := rooted_rootVfs source
  nextFd := Int.le_refl 3

theorem step_nextFd (vfs : VFS Unit TmpFS) (op : Op) : (vfs.step op).nextFd = vfs.nextFd := by
  cases op with
  | mkdir path => exact mkdir_nextFd vfs path
  | createFile path content => exact createFile_nextFd vfs path content
  | writePath path data => exact writePath_nextFd vfs path data

theorem Rooted.open_nextFd {vfs : VFS Unit TmpFS} (h : Rooted vfs) (path flags : Str) :
    vfs.nextFd ≤ (vfs.open_ path flags).2.nextFd := by
  have hnext : vfs.nextFd ≤ vfs.nextFd + 1 := by omega
  rcases h.open_spec path flags with ⟨-, hopen⟩ | ⟨inode, -, -, hopen⟩ |
    ⟨dir, dir', child, fs, -, -, -, hopen, -⟩
  · rw [hopen]
  · rw [hopen]
    exact hnext
  · rw [hopen]
    exact hnext

theorem ready_act (vfs : VFS Unit TmpFS) (action : Action) (h : Ready vfs) :
    Ready (vfs.act action) := by
  obtain ⟨hrooted, hfd⟩ := h
  cases action with
  | create op => exact ⟨rooted_step vfs op hrooted, (vfs.step_nextFd op).symm ▸ hfd⟩
  | open_ path flags =>
      exact ⟨hrooted.open_ path flags, Int.le_trans hfd (hrooted.open_nextFd path flags)⟩
  | read fd size => exact ⟨hrooted.read fd size, (vfs.read_nextFd fd size).symm ▸ hfd⟩
  | write fd data => exact ⟨hrooted.write fd data, (vfs.write_nextFd fd data).symm ▸ hfd⟩
  | close fd => exact ⟨hrooted.close fd, (vfs.close_nextFd fd).symm ▸ hfd⟩
  | driver op => exact ⟨hrooted.setFs (TmpFS.inv_step _ op hrooted.inv), hfd⟩

theorem Ready.opens_iff {vfs : VFS Unit TmpFS} (h : Ready vfs) (path flags : Str) :
    OpensRight vfs path flags (vfs.open_ path flags) ↔ vfs.PlainOpen path flags := by
  rcases h.rooted.open_spec path flags with ⟨hnone, hopen⟩ | ⟨inode, hstat, hdir, hopen⟩ |
    ⟨dir, dir', child, fs, hstat, hwrites, hdir, hopen, -, hstat', hne, -⟩
  · rw [hopen]
    constructor
    · intro hright
      by_cases hboth : Writes flags ∧ vfs.Creatable path
      · obtain ⟨fd, inode, hfd, hle, -⟩ := hright.creates hboth.1 hboth.2
        cases hfd
        omega
      · by_cases hwrites : Writes flags
        · exact Or.inr (Or.inr ⟨hnone, fun hcreate => hboth ⟨hwrites, hcreate⟩⟩)
        · exact Or.inl hwrites
    · intro hplain
      refine ⟨?_, ?_, fun d name b hentry => Or.inl hentry⟩
      · intro fd hfd hle
        cases hfd
        omega
      · intro hwrites hcreate
        rcases hplain with hread | ⟨inode, hstat, -⟩ | ⟨-, hnot⟩
        · exact absurd hwrites hread
        · rw [hnone] at hstat
          cases hstat
        · exact absurd hcreate hnot
  · rw [hopen]
    refine iff_of_true ⟨?_, ?_, fun d name b hentry => Or.inl hentry⟩ ?_
    · intro fd hfd _
      cases hfd
      exact ⟨_, inode, Dict.get?_set_self _ _ _, hstat, rfl⟩
    · rintro - ⟨-, hnone, -⟩
      rw [hnone] at hstat
      cases hstat
    · by_cases hwrites : Writes flags
      · exact Or.inr (Or.inl ⟨inode, hstat, fun htype => hdir ⟨hwrites, htype⟩⟩)
      · exact Or.inl hwrites
  · -- the descriptor and the path lead to different inodes
    rw [hopen]
    refine iff_of_false ?_ ?_
    · intro hright
      obtain ⟨file, inode, hfile, hinode, hino⟩ := hright.agrees vfs.nextFd rfl h.nextFd
      have hfile : (vfs.openFiles.set vfs.nextFd _).get? vfs.nextFd = some file := hfile
      have hinode : (vfs.setFs () fs).stat path = some inode := hinode
      rw [Dict.get?_set_self] at hfile
      cases hfile
      rw [hstat'] at hinode
      cases hinode
      exact hne hino
    · rintro (hread | ⟨inode, hinode, htype⟩ | ⟨hnone, -⟩)
      · exact hread hwrites
      · rw [hstat] at hinode
        cases hinode
        exact htype hdir
      · rw [hnone] at hstat
        cases hstat

/-- In every state reached, opening a path is right exactly when the flags do not ask for
writing, or the path names no directory and is not one to be created. -/
theorem opensRight_iff (source : Str) (actions : List Action) (path flags : Str) :
    let vfs := run act (rootVfs source) actions
    OpensRight vfs path flags (vfs.open_ path flags) ↔ vfs.PlainOpen path flags := by
  intro vfs
  have h : Ready vfs := run_invariant ready_act (ready_rootVfs source) actions
  exact h.opens_iff path flags

/-- A missing file is not created, and opening a directory for writing creates a file of
its name in it. -/
theorem open_creates_elsewhere :
    let vfs := run act (rootVfs "tmpfs".toList) [.create (.mkdir "/etc".toList)]
    (vfs.open_ "/new".toList "w".toList).1 = .ok (-2) ∧
    vfs.Creatable "/new".toList ∧
    ((vfs.open_ "/etc".toList "w".toList).2.stat "/etc/etc".toList).map Inode.itype = some .file ∧
    ¬ OpensRight vfs "/new".toList "w".toList (vfs.open_ "/new".toList "w".toList) ∧
    ¬ OpensRight vfs "/etc".toList "w".toList (vfs.open_ "/etc".toList "w".toList) := by
  intro vfs
  have hmissing : (vfs.open_ "/new".toList "w".toList).1 = .ok (-2) := rfl
  have hcreatable : vfs.Creatable "/new".toList :=
    ⟨Or.inr ⟨"new".toList, rfl, by decide⟩, rfl, _, rfl, rfl⟩
  have hwrites : Writes "w".toList := by decide
  refine ⟨hmissing, hcreatable, rfl, ?_, ?_⟩
  · intro hright
    obtain ⟨fd, inode, hfd, hle, -⟩ := hright.creates hwrites hcreatable
    rw [hmissing] at hfd
    cases hfd
    omega
  · intro hright
    obtain ⟨file, inode, hfile, hinode, hino⟩ := hright.agrees 3 rfl (Int.le_refl 3)
    have hfileIno : some file.ino = some 3 := congrArg (Option.map OpenFile.ino) hfile.symm
    have hinodeIno : some inode.ino = some 2 := congrArg (Option.map Inode.ino) hinode.symm
    rw [hino, hinodeIno] at hfileIno
    cases hfileIno

end ComputeKernel.Vfs.VFS
