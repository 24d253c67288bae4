import ComputeKernel.Fs.Ext2FS
import ComputeKernel.Fs.TmpFS

/-!
# Volumes

A volume is a filesystem of either driver.  Its directories form a tree whatever is done
with it; an ext2 volume begins again with a single inode at its first creation, which
replaces the root.
-/

namespace ComputeKernel.Fs

open Lib

/-- `P` is kept by every method of a driver that changes the filesystem. -/
structure Filesystem.Keeps {F : Type} [Filesystem F] (P : F → Prop) : Prop where
  create : ∀ {fs}, P fs → ∀ parentIno name itype,
    P (Filesystem.create fs parentIno name itype).2
  mkdir : ∀ {fs}, P fs → ∀ parentIno name, P (Filesystem.mkdir fs parentIno name).2
  write : ∀ {fs}, P fs → ∀ ino offset data, P (Filesystem.write fs ino offset data).2
  setSize : ∀ {fs}, P fs → ∀ ino size, P (Filesystem.setSize fs ino size)

inductive Volume
  | tmpfs (fs : TmpFS)
  | ext2 (fs : Ext2FS)
  deriving DecidableEq

/-! ## tmpfs -/

namespace TmpFS

/-- The directories are a tree with root 1. -/
def Arranged (fs : TmpFS) : Prop :=
  InodeTable.Hierarchy fs.inodes 1 fs.nextIno

theorem arranged_init : Arranged init := hierarchy_init

namespace Arranged

variable {fs : TmpFS}

theorem create (h : Arranged fs) (parentIno : Int) (name : Str) (itype : InodeType) :
    Arranged (fs.create parentIno name itype).2 := by
  cases herror : InodeTable.createError "tmpfs".toList fs.inodes parentIno name with
  | some error =>
      rw [create_of_error herror]
      exact h
  | none =>
      rw [create_of_none herror]
      obtain ⟨parent, hparent, -, hname⟩ := InodeTable.createError_eq_none.mp herror
      exact InodeTable.Hierarchy.enter h hparent hname rfl rfl

theorem update (h : Arranged fs) {f : Inode → Inode} (hf : InodeTable.KeepsPlace f) (ino : Int) :
    Arranged (fs.update ino f) :=
  InodeTable.Hierarchy.modify h hf ino

theorem write (h : Arranged fs) (ino offset : Int) (data : Bytes) :
    Arranged (fs.write ino offset data).2 := by
  rcases InodeTable.write_cases (-2) fs.inodes ino offset data with
    ⟨-, -, -, hwrite⟩ | ⟨-, hwrite, -⟩
  · simp only [TmpFS.write, hwrite]
    exact h.update (InodeTable.keepsPlace_splice offset data) ino
  · simp only [TmpFS.write, hwrite]
    exact h

end Arranged

end TmpFS

/-! ## ext2 -/

namespace Ext2FS

/-- The directories are a tree with root 2, which is alone before the first creation. -/
def Arranged (fs : Ext2FS) : Prop :=
  (fs.nextIno = 2 ∧ InodeTable.RootOnly fs.inodes 2) ∨
    InodeTable.Hierarchy fs.inodes 2 fs.nextIno

theorem arranged_init (volumeName : Str) : Arranged (init volumeName) := by
  refine Or.inl ⟨rfl, by simp [init], ?_⟩
  intro ino inode hget
  simp only [init, Dict.get?_set, Dict.get?_empty] at hget
  split at hget
  · rename_i hino
    cases hget
    exact ⟨hino, rfl, rfl⟩
  · cases hget

namespace Arranged

variable {fs : Ext2FS}

theorem hierarchy (h : Arranged fs) : ∃ next, InodeTable.Hierarchy fs.inodes 2 next := by
  rcases h with ⟨-, hroot⟩ | htree
  · exact ⟨3, hroot.hierarchy (by decide) (by decide)⟩
  · exact ⟨fs.nextIno, htree⟩

theorem create (h : Arranged fs) (parentIno : Int) (name : Str) (itype : InodeType) :
    Arranged (fs.create parentIno name itype).2 := by
  cases herror : InodeTable.createError "ext2".toList fs.inodes parentIno name with
  | some error =>
      rw [create_of_error herror]
      exact h
  | none =>
      rw [create_of_none herror]
      obtain ⟨parent, hparent, -, hname⟩ := InodeTable.createError_eq_none.mp herror
      refine Or.inr ?_
      rcases h with ⟨hnext, hroot⟩ | htree
      · -- the child takes the number of the root, and its place
        obtain ⟨rfl, -, -⟩ := hroot.only hparent
        change InodeTable.Hierarchy (fs.inodes.enter 2 name { ino := fs.nextIno, itype := itype })
          2 (fs.nextIno + 1)
        rw [hnext, InodeTable.enter, if_pos rfl]
        apply InodeTable.RootOnly.hierarchy _ (by decide) (by decide)
        constructor
        · simp
        · intro ino inode hget
          rw [Dict.get?_set] at hget
          split at hget
          · rename_i hino
            cases hget
            exact ⟨hino, rfl, rfl⟩
          · rename_i hino
            exact absurd (hroot.only hget).1 hino
      · exact htree.enter hparent hname rfl rfl

theorem modify (h : Arranged fs) {f : Inode → Inode} (hf : InodeTable.KeepsPlace f) (ino : Int) :
    Arranged { fs with inodes := fs.inodes.modify ino f } := by
  rcases h with ⟨hnext, hroot⟩ | htree
  · exact Or.inl ⟨hnext, hroot.modify hf ino⟩
  · exact Or.inr (htree.modify hf ino)

theorem write (h : Arranged fs) (ino offset : Int) (data : Bytes) :
    Arranged (fs.write ino offset data).2 := by
  rcases InodeTable.write_cases (-22) fs.inodes ino offset data with
    ⟨-, -, -, hwrite⟩ | ⟨-, hwrite, -⟩
  · simp only [Ext2FS.write, hwrite]
    exact h.modify (InodeTable.keepsPlace_splice offset data) ino
  · simp only [Ext2FS.write, hwrite]
    exact h

end Arranged

end Ext2FS

/-! ## Either -/

namespace Volume

def inodes : Volume → InodeTable
  | tmpfs fs => fs.inodes
  | ext2 fs => fs.inodes

instance : Filesystem Volume where
  fstype
    | tmpfs fs => Filesystem.fstype fs
    | ext2 fs => Filesystem.fstype fs
  rootIno
    | tmpfs fs => fs.rootIno
    | ext2 fs => fs.rootIno
  lookup
    | tmpfs fs => fs.lookup
    | ext2 fs => fs.lookup
  lookupName
    | tmpfs fs => fs.lookupName
    | ext2 fs => fs.lookupName
  create
    | tmpfs fs, parentIno, name, itype => (fs.create parentIno name itype).map id tmpfs
    | ext2 fs, parentIno, name, itype => (fs.create parentIno name itype).map id ext2
  mkdir
    | tmpfs fs, parentIno, name => (fs.mkdir parentIno name).map id tmpfs
    | ext2 fs, parentIno, name => (fs.mkdir parentIno name).map id ext2
  read
    | tmpfs fs => fs.read
    | ext2 fs => fs.read
  write
    | tmpfs fs, ino, offset, data => (fs.write ino offset data).map id tmpfs
    | ext2 fs, ino, offset, data => (fs.write ino offset data).map id ext2
  readdir
    | tmpfs fs => fs.readdir
    | ext2 fs => fs.readdir
  setSize
    | tmpfs fs, ino, size => tmpfs (Filesystem.setSize fs ino size)
    | ext2 fs, ino, size => ext2 (Filesystem.setSize fs ino size)

inductive Kind
  | tmpfs
  | ext2 (volumeName : Str)
  deriving DecidableEq, Repr

def new : Kind → Volume
  | .tmpfs => tmpfs TmpFS.init
  | .ext2 volumeName => ext2 (Ext2FS.init volumeName)

inductive Op
  | create (parentIno : Int) (name : Str) (itype : InodeType)
  | mkdir (parentIno : Int) (name : Str)
  | write (ino offset : Int) (data : Bytes)
  | symlink (parentIno : Int) (name target : Str)
  | mknod (parentIno : Int) (name : Str) (major minor : Int) (itype : InodeType)

/-- A call of the driver itself, whether it returns or raises.  Symbolic links and device
nodes are made by tmpfs only. -/
def step : Volume → Op → Volume
  | v, .create parentIno name itype => (Filesystem.create v parentIno name itype).2
  | v, .mkdir parentIno name => (Filesystem.mkdir v parentIno name).2
  | v, .write ino offset data => (Filesystem.write v ino offset data).2
  | tmpfs fs, .symlink parentIno name target => tmpfs (fs.symlink parentIno name target).2
  | tmpfs fs, .mknod parentIno name major minor itype =>
      tmpfs (fs.mknod parentIno name major minor itype).2
  | ext2 fs, .symlink _ _ _ => ext2 fs
  | ext2 fs, .mknod _ _ _ _ _ => ext2 fs

def Arranged : Volume → Prop
  | tmpfs fs => fs.Arranged
  | ext2 fs => fs.Arranged

theorem arranged_new (kind : Kind) : Arranged (new kind) := by
  cases kind with
  | tmpfs => exact TmpFS.arranged_init
  | ext2 volumeName => exact Ext2FS.arranged_init volumeName

theorem keepsPlace_size (size : Int) :
    InodeTable.KeepsPlace fun inode => { inode with size := size } where
  ino _ := rfl
  children _ := rfl

theorem keeps_arranged : Filesystem.Keeps Arranged where
  create := by
    intro v h parentIno name itype
    cases v with
    | tmpfs fs => exact TmpFS.Arranged.create h parentIno name itype
    | ext2 fs => exact Ext2FS.Arranged.create h parentIno name itype
  mkdir := by
    intro v h parentIno name
    cases v with
    | tmpfs fs => exact TmpFS.Arranged.create h parentIno name .dir
    | ext2 fs => exact Ext2FS.Arranged.create h parentIno name .dir
  write := by
    intro v h ino offset data
    cases v with
    | tmpfs fs => exact TmpFS.Arranged.write h ino offset data
    | ext2 fs => exact Ext2FS.Arranged.write h ino offset data
  setSize := by
    intro v h ino size
    cases v with
    | tmpfs fs => exact TmpFS.Arranged.update h (keepsPlace_size size) ino
    | ext2 fs => exact Ext2FS.Arranged.modify h (keepsPlace_size size) ino

theorem arranged_step {v : Volume} (h : Arranged v) (op : Op) : Arranged (v.step op) := by
  cases op with
  | create parentIno name itype => exact keeps_arranged.create h parentIno name itype
  | mkdir parentIno name => exact keeps_arranged.mkdir h parentIno name
  | write ino offset data => exact keeps_arranged.write h ino offset data
  | symlink parentIno name target =>
      cases v with
      | tmpfs fs =>
          apply TmpFS.createWith_keeps (TmpFS.Arranged.create h parentIno name .symlink)
          intro fs ino hcreated
          apply TmpFS.Arranged.update hcreated
          exact ⟨fun _ => rfl, fun _ => rfl⟩
      | ext2 fs => exact h
  | mknod parentIno name major minor itype =>
      cases v with
      | tmpfs fs =>
          apply TmpFS.createWith_keeps (TmpFS.Arranged.create h parentIno name itype)
          intro fs ino hcreated
          apply TmpFS.Arranged.update hcreated
          exact ⟨fun _ => rfl, fun _ => rfl⟩
      | ext2 fs => exact h

theorem Arranged.hierarchy {v : Volume} (h : Arranged v) :
    ∃ next, InodeTable.Hierarchy v.inodes (Filesystem.rootIno v) next := by
  cases v with
  | tmpfs fs => exact ⟨fs.nextIno, h⟩
  | ext2 fs => exact Ext2FS.Arranged.hierarchy h

theorem lookupName_eq (v : Volume) (parentIno : Int) (name : Str) :
    Filesystem.lookupName v parentIno name = v.inodes.lookupName parentIno name := by
  cases v with
  | tmpfs fs => rfl
  | ext2 fs => rfl

end Volume

end ComputeKernel.Fs
