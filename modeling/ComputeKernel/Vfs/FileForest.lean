import ComputeKernel.Vfs.FileStore

/-!
# Forests of file stores

What a VFS with several filesystems is for: a store of files for each of them, and a route for
each path to a store and the names in it.  Descriptors are numbered across the stores, and each
belongs to the store it was opened in.
-/

namespace ComputeKernel.Vfs

open Lib Fs

structure FileForest (ρ : Type) where
  stores : ρ → FileStore
  owner : Int → Option ρ
  nextFd : Int

namespace FileForest

variable {ρ : Type}

def init : FileForest ρ where
  stores _ := FileStore.init
  owner _ := none
  nextFd := 3

/-- One store, with the next descriptor of the whole forest. -/
def focus (s : FileForest ρ) (ref : ρ) : FileStore :=
  { s.stores ref with nextFd := s.nextFd }

variable [DecidableEq ρ]

def put (s : FileForest ρ) (ref : ρ) (store : FileStore) : FileForest ρ :=
  { s with stores := Function.update s.stores ref store, nextFd := store.nextFd }

def grant (s : FileForest ρ) (ref : ρ) (opened : FileReply × FileStore) :
    FileReply × FileForest ρ :=
  (opened.1, { s.put ref opened.2 with owner := Function.update s.owner s.nextFd (some ref) })

theorem focus_put (s : FileForest ρ) (ref : ρ) (store : FileStore) :
    (s.put ref store).focus ref = store := by
  unfold focus put
  dsimp only
  rw [Function.update_self]

theorem grant_put {s : FileForest ρ} {ref : ρ} {store : FileStore}
    (h : store.nextFd = s.nextFd) (opened : FileReply × FileStore) :
    (s.put ref store).grant ref opened = s.grant ref opened := by
  unfold grant put
  dsimp only
  rw [Function.update_idem, h]

/-! ## Descriptors -/

def read (s : FileForest ρ) (fd size : Int) : FileReply × FileForest ρ :=
  match s.owner fd with
  | none => (.data (some []), s)
  | some ref =>
      let (reply, store) := (s.focus ref).read fd size
      (reply, s.put ref store)

def write (s : FileForest ρ) (fd : Int) (data : Bytes) : FileReply × FileForest ρ :=
  match s.owner fd with
  | none => (.count (-9), s)
  | some ref =>
      let (reply, store) := (s.focus ref).write fd data
      (reply, s.put ref store)

def close (s : FileForest ρ) (fd : Int) : Bool × FileForest ρ :=
  match s.owner fd with
  | none => (false, s)
  | some ref =>
      let (closed, store) := (s.focus ref).close fd
      (closed, { s.put ref store with owner := Function.update s.owner fd none })

/-! ## Paths -/

section Paths

variable (route : Str → Option (ρ × List Str))

omit [DecidableEq ρ] in
def find (s : FileForest ρ) (path : Str) : Option (ρ × List Str × Node) :=
  (route path).bind fun found =>
    ((s.stores found.1).tree found.2).map fun node => (found.1, found.2, node)

/-- The directory of a path decides which store it is created in. -/
noncomputable def make (s : FileForest ρ) (path : Str) (node : Node) : Bool × FileForest ρ :=
  match route (parentPath path) with
  | none => (false, s)
  | some (ref, names) =>
      let (created, store) := (s.focus ref).make (names ++ [baseName path]) node
      (created, s.put ref store)

noncomputable def writePath (s : FileForest ρ) (path : Str) (data : Bytes) :
    FileReply × FileForest ρ :=
  match s.find route path with
  | some (ref, names, .file, content) =>
      (.count data.length, s.put ref ((s.focus ref).put names (spliceAt content 0 data)))
  | some _ => (.count (-22), s)
  | none =>
      let (created, s) := s.make route path (.file, data)
      (.count (if created then data.length else -2), s)

omit [DecidableEq ρ] in
def readPath (s : FileForest ρ) (path : Str) (size : Int) : Option Bytes :=
  match s.find route path with
  | some (_, _, .file, content) => some (slice content 0 (0 + size))
  | _ => none

omit [DecidableEq ρ] in
def readdir (s : FileForest ρ) (path : Str) : List Str :=
  match s.find route path with
  | some (ref, names, .dir, _) => ".".toList :: "..".toList :: (s.stores ref).listing names
  | _ => []

noncomputable def open_ (s : FileForest ρ) (path flags : Str) : FileReply × FileForest ρ :=
  match s.find route path with
  | none => (.count (-2), s)
  | some (ref, names, node) =>
      if VFS.Writes flags ∧ node.1 = .dir then
        let names := names ++ [baseName path]
        s.grant ref (((s.focus ref).attach names (.file, [])).openAt names flags)
      else s.grant ref ((s.focus ref).openAt names flags)

noncomputable def serve (s : FileForest ρ) : FileRequest → FileReply × FileForest ρ
  | .mkdir path =>
      let (created, s) := s.make route path (.dir, [])
      (.flag created, s)
  | .createFile path content =>
      let (created, s) := s.make route path (.file, content)
      (.flag created, s)
  | .writePath path data => s.writePath route path data
  | .readPath path size => (.data (s.readPath route path size), s)
  | .stat path =>
      (.node ((s.find route path).map fun found =>
        (found.2.2.1, found.2.2.2.length, found.2.2.2)), s)
  | .readdir path => (.names (s.readdir route path), s)
  | .open_ path flags => s.open_ route path flags
  | .read fd size => s.read fd size
  | .write fd data => s.write fd data
  | .close fd =>
      let (closed, s) := s.close fd
      (.flag closed, s)

end Paths

end FileForest

end ComputeKernel.Vfs
