import ComputeKernel.Fs.Inode

/-!
# The ext2-inspired filesystem

The same inode table as tmpfs, with a superblock.  The constructor stores the
root as inode 2 itself and leaves the number counter at 2.
-/

namespace ComputeKernel.Fs

open Lib

structure Ext2Superblock where
  totalInodes : Int := 1024
  totalBlocks : Int := 8192
  freeInodes : Int := 1023
  freeBlocks : Int := 8180
  blockSize : Int := 4096
  inodesPerGroup : Int := 128
  blocksPerGroup : Int := 1024
  volumeName : Str := "ext2-sim".toList
  magic : Int := 0xEF53
  deriving DecidableEq, Repr

structure Ext2FS where
  superblock : Ext2Superblock
  inodes : InodeTable
  nextIno : Int
  deriving DecidableEq

namespace Ext2FS

def takeInode (superblock : Ext2Superblock) : Ext2Superblock :=
  { superblock with freeInodes := superblock.freeInodes - 1 }

def init (volumeName : Str) : Ext2FS where
  superblock := takeInode { volumeName := volumeName }
  inodes := Dict.empty.set 2 { ino := 2, itype := .dir, mode := 0o755 }
  nextIno := 2

def rootIno (_ : Ext2FS) : Int := 2

def lookup (fs : Ext2FS) (ino : Int) : Option Inode :=
  fs.inodes.get? ino

def lookupName (fs : Ext2FS) (parentIno : Int) (name : Str) : Option Inode :=
  fs.inodes.lookupName parentIno name

/-- A new inode takes the next number, whether or not the table has it already. -/
def create (fs : Ext2FS) (parentIno : Int) (name : Str) (itype : InodeType) :
    Except FsError Inode × Ext2FS :=
  match InodeTable.createError "ext2".toList fs.inodes parentIno name with
  | some error => (.error error, fs)
  | none =>
      let inode : Inode := { ino := fs.nextIno, itype := itype }
      (.ok inode,
        { superblock := takeInode fs.superblock
          inodes := fs.inodes.enter parentIno name inode
          nextIno := fs.nextIno + 1 })

def read (fs : Ext2FS) (ino offset size : Int) : Bytes :=
  fs.inodes.read ino offset size

def write (fs : Ext2FS) (ino offset : Int) (data : Bytes) : Int × Ext2FS :=
  let (n, inodes) := InodeTable.write (-22) fs.inodes ino offset data
  (n, { fs with inodes := inodes })

def readdir (fs : Ext2FS) (ino : Int) : List (Str × Int) :=
  fs.inodes.readdir ino

def mkdir (fs : Ext2FS) (parentIno : Int) (name : Str) : Except FsError Inode × Ext2FS :=
  fs.create parentIno name .dir

instance : Filesystem Ext2FS where
  fstype _ := "ext2".toList
  rootIno := rootIno
  lookup := lookup
  lookupName := lookupName
  create := create
  mkdir := mkdir
  read := read
  write := write
  readdir := readdir
  setSize fs ino size :=
    { fs with inodes := fs.inodes.modify ino fun inode => { inode with size := size } }

theorem create_of_error {fs : Ext2FS} {parentIno : Int} {name : Str} {error : FsError}
    (h : InodeTable.createError "ext2".toList fs.inodes parentIno name = some error)
    (itype : InodeType) : fs.create parentIno name itype = (.error error, fs) := by
  simp only [create, h]

theorem create_of_none {fs : Ext2FS} {parentIno : Int} {name : Str}
    (h : InodeTable.createError "ext2".toList fs.inodes parentIno name = none)
    (itype : InodeType) :
    fs.create parentIno name itype = (.ok { ino := fs.nextIno, itype := itype },
      { superblock := takeInode fs.superblock
        inodes := fs.inodes.enter parentIno name { ino := fs.nextIno, itype := itype }
        nextIno := fs.nextIno + 1 }) := by
  simp only [create, h]

end Ext2FS

end ComputeKernel.Fs
