import ComputeKernel.Fs.Inode
import ComputeKernel.Lib.Path
import Mathlib.Data.List.Sort

/-!
# Virtual filesystem switch

Filesystem objects live in a store indexed by references, so that one object may
be mounted at several mount points.  A path is resolved by the first mount point
of the list that captures it, with the mount at `/` as fallback.
-/

namespace ComputeKernel.Vfs

open Lib Fs

structure OpenFile where
  fd : Int
  path : Str
  ino : Int
  flags : Str
  position : Int
  fsName : Str
  deriving DecidableEq, Repr

structure MountPoint (ρ : Type) where
  mountpoint : Str
  fs : ρ
  source : Str
  deriving DecidableEq, Repr

/-- The order of the mount list: longer mount points come first. -/
def MountPoint.LongerFirst {ρ : Type} (left right : MountPoint ρ) : Prop :=
  right.mountpoint.length ≤ left.mountpoint.length

instance {ρ : Type} : DecidableRel (@MountPoint.LongerFirst ρ) := fun left right =>
  inferInstanceAs (Decidable (right.mountpoint.length ≤ left.mountpoint.length))

structure VFS (ρ F : Type) where
  filesystems : ρ → F
  mounts : List (MountPoint ρ)
  openFiles : Dict Int OpenFile
  nextFd : Int

/-- Last section of a path without trailing slashes. -/
def baseName (path : Str) : Str :=
  ((path.rdropWhile (· == '/')).splitOn '/').getLastD []

/-- The sections before the last one, joined again, or `/` when nothing is left. -/
def parentPath (path : Str) : Str :=
  let parent := ['/'].intercalate ((path.rdropWhile (· == '/')).splitOn '/').dropLast
  if parent = [] then ['/'] else parent

namespace VFS

variable {ρ F : Type}

def init (filesystems : ρ → F) : VFS ρ F where
  filesystems := filesystems
  mounts := []
  openFiles := Dict.empty
  nextFd := 3

/-- The mount list is sorted after every mount; equally long mount points keep
their order. -/
def mount (vfs : VFS ρ F) (mountpoint : Str) (fs : ρ) (source : Str) : VFS ρ F :=
  { vfs with
    mounts := List.insertionSort MountPoint.LongerFirst
      (vfs.mounts ++ [⟨mountpoint, fs, source⟩]) }

def findMount (path : Str) :
    List (MountPoint ρ) → Option (MountPoint ρ) → Option (MountPoint ρ)
  | [], best => best
  | mp :: mounts, best =>
      if Path.Captures '/' mp.mountpoint path then some mp
      else if mp.mountpoint = ['/'] ∧ best.isNone then findMount path mounts (some mp)
      else findMount path mounts best

def bestMount (vfs : VFS ρ F) (path : Str) : Option (MountPoint ρ) :=
  findMount path vfs.mounts none

def walk [Filesystem F] (fs : F) (ino : Int) : List Str → Option Int
  | [] => some ino
  | part :: parts =>
      match Filesystem.lookupName fs ino part with
      | none => none
      | some child => walk fs child.ino parts

/-- The filesystem a path lies on, if any, and its inode or a negative error. -/
def resolvePath [Filesystem F] (vfs : VFS ρ F) (path : Str) : Option ρ × Int :=
  match vfs.bestMount path with
  | none => (none, -2)
  | some best =>
      let fs := vfs.filesystems best.fs
      let rel := path.drop best.mountpoint.length
      if rel = [] ∨ rel = ['/'] then (some best.fs, Filesystem.rootIno fs)
      else
        match walk fs (Filesystem.rootIno fs) (Path.components '/' rel) with
        | none => (some best.fs, -2)
        | some ino => (some best.fs, ino)

/-- Resolution as its callers test it: a filesystem and a nonnegative inode number. -/
def resolve? [Filesystem F] (vfs : VFS ρ F) (path : Str) : Option (ρ × Int) :=
  match vfs.resolvePath path with
  | (none, _) => none
  | (some ref, ino) => if ino < 0 then none else some (ref, ino)

def setFs [DecidableEq ρ] (vfs : VFS ρ F) (ref : ρ) (fs : F) : VFS ρ F :=
  { vfs with filesystems := Function.update vfs.filesystems ref fs }

@[simp] theorem setFs_self [DecidableEq ρ] (vfs : VFS ρ F) (ref : ρ) :
    vfs.setFs ref (vfs.filesystems ref) = vfs := by
  unfold setFs
  rw [Function.update_eq_self]

def addOpenFile [Filesystem F] (vfs : VFS ρ F) (path flags : Str) (ref : ρ)
    (inode : Inode) : VFS ρ F :=
  { vfs with
    openFiles := vfs.openFiles.set vfs.nextFd
      { fd := vfs.nextFd
        path := path
        ino := inode.ino
        flags := flags
        position := if 'a' ∈ flags then inode.size else 0
        fsName := Filesystem.fstype (vfs.filesystems ref) }
    nextFd := vfs.nextFd + 1 }

/-- Open a path.  For writing in a directory, a file named like the directory is
created or reused in it; only `FileExistsError` is caught there. -/
def open_ [Filesystem F] [DecidableEq ρ] (vfs : VFS ρ F) (path flags : Str) :
    Except FsError Int × VFS ρ F :=
  match vfs.resolve? path with
  | none => (.ok (-2), vfs)
  | some (ref, ino) =>
      match Filesystem.lookup (vfs.filesystems ref) ino with
      | none => (.ok (-2), vfs)
      | some inode =>
          if ('w' ∈ flags ∨ 'a' ∈ flags) ∧ inode.itype = .dir then
            match Filesystem.create (vfs.filesystems ref) ino (baseName path) .file with
            | (.ok inode, fs) =>
                (.ok vfs.nextFd, (vfs.setFs ref fs).addOpenFile path flags ref inode)
            | (.error (.fileExistsError _), fs) =>
                let inode := (Filesystem.lookupName fs ino (baseName path)).getD inode
                (.ok vfs.nextFd, (vfs.setFs ref fs).addOpenFile path flags ref inode)
            | (.error (.valueError message), fs) =>
                (.error (.valueError message), vfs.setFs ref fs)
          else (.ok vfs.nextFd, vfs.addOpenFile path flags ref inode)

def advance (vfs : VFS ρ F) (fd : Int) (n : Int) : VFS ρ F :=
  { vfs with
    openFiles := vfs.openFiles.modify fd fun file =>
      { file with position := file.position + n } }

/-- Read through a descriptor.  The path is resolved again at every read, for the
filesystem only. -/
def read [Filesystem F] (vfs : VFS ρ F) (fd size : Int) : Bytes × VFS ρ F :=
  match vfs.openFiles.get? fd with
  | none => ([], vfs)
  | some file =>
      match (vfs.resolvePath file.path).1 with
      | none => ([], vfs)
      | some ref =>
          let data := Filesystem.read (vfs.filesystems ref) file.ino file.position size
          (data, vfs.advance fd data.length)

def write [Filesystem F] [DecidableEq ρ] (vfs : VFS ρ F) (fd : Int) (data : Bytes) :
    Int × VFS ρ F :=
  match vfs.openFiles.get? fd with
  | none => (-9, vfs)
  | some file =>
      match (vfs.resolvePath file.path).1 with
      | none => (-2, vfs)
      | some ref =>
          let (n, fs) := Filesystem.write (vfs.filesystems ref) file.ino file.position data
          (n, if n > 0 then (vfs.setFs ref fs).advance fd n else vfs.setFs ref fs)

def close (vfs : VFS ρ F) (fd : Int) : Bool × VFS ρ F :=
  match vfs.openFiles.get? fd with
  | none => (false, vfs)
  | some _ => (true, { vfs with openFiles := vfs.openFiles.erase fd })

def readdir [Filesystem F] (vfs : VFS ρ F) (path : Str) : List (Str × Int) :=
  match vfs.resolve? path with
  | none => []
  | some (ref, ino) => Filesystem.readdir (vfs.filesystems ref) ino

def stat [Filesystem F] (vfs : VFS ρ F) (path : Str) : Option Inode :=
  match vfs.resolve? path with
  | none => none
  | some (ref, ino) => Filesystem.lookup (vfs.filesystems ref) ino

def mkdir [Filesystem F] [DecidableEq ρ] (vfs : VFS ρ F) (path : Str) : Bool × VFS ρ F :=
  match vfs.resolve? (parentPath path) with
  | none => (false, vfs)
  | some (ref, parentIno) =>
      match Filesystem.mkdir (vfs.filesystems ref) parentIno (baseName path) with
      | (.ok _, fs) => (true, vfs.setFs ref fs)
      | (.error _, fs) => (false, vfs.setFs ref fs)

def fill [Filesystem F] (fs : F) (ino : Int) (content : Bytes) : F :=
  if content = [] then fs
  else Filesystem.setSize (Filesystem.write fs ino 0 content).2 ino content.length

def createFile [Filesystem F] [DecidableEq ρ] (vfs : VFS ρ F) (path : Str)
    (content : Bytes) : Bool × VFS ρ F :=
  match vfs.resolve? (parentPath path) with
  | none => (false, vfs)
  | some (ref, parentIno) =>
      match Filesystem.create (vfs.filesystems ref) parentIno (baseName path) .file with
      | (.ok inode, fs) => (true, vfs.setFs ref (fill fs inode.ino content))
      | (.error _, fs) => (false, vfs.setFs ref fs)

def readPath [Filesystem F] (vfs : VFS ρ F) (path : Str) (size : Int) : Option Bytes :=
  match vfs.resolve? path with
  | none => none
  | some (ref, ino) =>
      match Filesystem.lookup (vfs.filesystems ref) ino with
      | none => none
      | some inode =>
          if inode.itype ≠ .file then none
          else some (Filesystem.read (vfs.filesystems ref) ino 0 size)

def writePath [Filesystem F] [DecidableEq ρ] (vfs : VFS ρ F) (path : Str)
    (data : Bytes) : Int × VFS ρ F :=
  match vfs.resolve? path with
  | none =>
      let (created, vfs) := vfs.createFile path data
      (if created then data.length else -2, vfs)
  | some (ref, ino) =>
      let (n, fs) := Filesystem.write (vfs.filesystems ref) ino 0 data
      (n, vfs.setFs ref fs)

end VFS

end ComputeKernel.Vfs
