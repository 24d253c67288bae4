import ComputeKernel.Fs.Inode

/-!
# tmpfs

The in-memory filesystem used as root filesystem: an inode table, and a counter
from which inode numbers are taken.
-/

namespace ComputeKernel.Fs

open Lib

structure TmpFS where
  inodes : InodeTable
  nextIno : Int
  deriving DecidableEq

namespace TmpFS

def newInode (fs : TmpFS) (itype : InodeType) (mode : Int) : Inode × TmpFS :=
  let inode : Inode := { ino := fs.nextIno, itype := itype, mode := mode }
  (inode, { inodes := fs.inodes.set fs.nextIno inode, nextIno := fs.nextIno + 1 })

def init : TmpFS :=
  (newInode { inodes := Dict.empty, nextIno := 1 } .dir 0o755).2

def rootIno (_ : TmpFS) : Int := 1

def lookup (fs : TmpFS) (ino : Int) : Option Inode :=
  fs.inodes.get? ino

def lookupName (fs : TmpFS) (parentIno : Int) (name : Str) : Option Inode :=
  fs.inodes.lookupName parentIno name

def create (fs : TmpFS) (parentIno : Int) (name : Str) (itype : InodeType) :
    Except FsError Inode × TmpFS :=
  match InodeTable.createError "tmpfs".toList fs.inodes parentIno name with
  | some error => (.error error, fs)
  | none =>
      let child := (fs.newInode itype 0o644).1
      (.ok child,
        { inodes := fs.inodes.enter parentIno name child
          nextIno := (fs.newInode itype 0o644).2.nextIno })

def read (fs : TmpFS) (ino offset size : Int) : Bytes :=
  fs.inodes.read ino offset size

def write (fs : TmpFS) (ino offset : Int) (data : Bytes) : Int × TmpFS :=
  let (n, inodes) := InodeTable.write (-2) fs.inodes ino offset data
  (n, { fs with inodes := inodes })

def readdir (fs : TmpFS) (ino : Int) : List (Str × Int) :=
  fs.inodes.readdir ino

def mkdir (fs : TmpFS) (parentIno : Int) (name : Str) : Except FsError Inode × TmpFS :=
  fs.create parentIno name .dir

/-- Assign to fields of an inode object; `f` keeps the inode's number. -/
def update (fs : TmpFS) (ino : Int) (f : Inode → Inode) : TmpFS :=
  { fs with inodes := fs.inodes.modify ino f }

/-- Create an inode and assign to fields of the object `create` returned. -/
def createWith (fs : TmpFS) (parentIno : Int) (name : Str) (itype : InodeType)
    (f : Inode → Inode) : Except FsError Inode × TmpFS :=
  match fs.create parentIno name itype with
  | (.error error, fs) => (.error error, fs)
  | (.ok inode, fs) => (.ok (f inode), fs.update inode.ino f)

def symlink (fs : TmpFS) (parentIno : Int) (name target : Str) :
    Except FsError Inode × TmpFS :=
  fs.createWith parentIno name .symlink fun sl => { sl with linkTarget := target }

def mknod (fs : TmpFS) (parentIno : Int) (name : Str) (major minor : Int)
    (itype : InodeType) : Except FsError Inode × TmpFS :=
  fs.createWith parentIno name itype fun dev => { dev with major := major, minor := minor }

instance : Filesystem TmpFS where
  fstype _ := "tmpfs".toList
  rootIno := rootIno
  lookup := lookup
  lookupName := lookupName
  create := create
  mkdir := mkdir
  read := read
  write := write
  readdir := readdir
  setSize fs ino size := fs.update ino fun inode => { inode with size := size }

theorem create_of_error {fs : TmpFS} {parentIno : Int} {name : Str} {error : FsError}
    (h : InodeTable.createError "tmpfs".toList fs.inodes parentIno name = some error)
    (itype : InodeType) : fs.create parentIno name itype = (.error error, fs) := by
  simp only [create, h]

theorem create_of_none {fs : TmpFS} {parentIno : Int} {name : Str}
    (h : InodeTable.createError "tmpfs".toList fs.inodes parentIno name = none)
    (itype : InodeType) :
    fs.create parentIno name itype =
      (.ok (fs.newInode itype 0o644).1,
        { inodes := fs.inodes.enter parentIno name (fs.newInode itype 0o644).1
          nextIno := fs.nextIno + 1 }) := by
  simp only [create, h]
  rfl

theorem get?_init (ino : Int) :
    init.inodes.get? ino =
      if ino = 1 then some { ino := 1, itype := .dir, mode := 0o755 } else none := by
  simp [init, newInode, Dict.get?_set]

theorem rootOnly_init : InodeTable.RootOnly init.inodes 1 where
  mem := by simp [Dict.mem_iff_isSome, get?_init]
  only := by
    intro ino inode h
    rw [get?_init] at h
    split at h
    · rename_i hino
      cases h
      exact ⟨hino, rfl, rfl⟩
    · cases h

theorem hierarchy_init : InodeTable.Hierarchy init.inodes 1 init.nextIno :=
  rootOnly_init.hierarchy (Int.le_refl 1) (by decide)

theorem createWith_keeps {P : TmpFS → Prop} {fs : TmpFS} {parentIno : Int} {name : Str}
    {itype : InodeType} {f : Inode → Inode} (hcreate : P (fs.create parentIno name itype).2)
    (hupdate : ∀ fs ino, P fs → P (fs.update ino f)) :
    P (fs.createWith parentIno name itype f).2 := by
  unfold createWith
  split
  · rename_i heq
    rw [heq] at hcreate
    exact hcreate
  · rename_i heq
    rw [heq] at hcreate
    exact hupdate _ _ hcreate

example : (init.create 1 "a".toList .file).1.toOption.map Inode.ino = some 2 := by
  decide

end TmpFS

end ComputeKernel.Fs
