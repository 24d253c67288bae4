import ComputeKernel.Lib.Service
import ComputeKernel.Vfs.Commuting
import ComputeKernel.Vfs.Opening

/-!
# File stores

What the VFS is for, without inodes: a tree of names with files and directories, the order in
which each directory got its names, and descriptors that stand somewhere in the file at some
path.  Nothing is ever removed from the tree, so a path stands for its file for good.
-/

namespace ComputeKernel.Vfs

open Lib Lib.Path Fs

/-- The names that a path is walked by; its first character is never one of them. -/
def pathNames (path : Str) : List Str :=
  components '/' (path.drop 1)

/-- The names of what a creation at the path makes. -/
def newNames (path : Str) : List Str :=
  pathNames (parentPath path) ++ [baseName path]

theorem pathNames_of_normalized {path : Str} (h : Normalized '/' path) :
    pathNames path = components '/' path :=
  VFS.components_drop h

theorem isComponent_of_mem_pathNames {path name : Str} (h : name ∈ pathNames path) :
    IsComponent '/' name :=
  isComponent_of_mem h

/-! ## Last names -/

theorem baseName_cases (path : Str) :
    IsComponent '/' (baseName path) ∨
      (baseName path = [] ∧ path.rdropWhile (· == '/') = []) := by
  unfold baseName
  generalize hstripped : path.rdropWhile (· == '/') = stripped
  have hjoin : ['/'].intercalate (stripped.splitOn '/') = stripped := List.intercalate_splitOn '/'
  have hparts : ∀ c, c ∈ stripped.splitOn '/' → c ≠ [] → IsComponent '/' c := fun c hc hne =>
    isComponent_of_mem (List.mem_filter.mpr ⟨hc, decide_eq_true hne⟩)
  generalize stripped.splitOn '/' = sections at hjoin hparts ⊢
  rcases List.eq_nil_or_concat' sections with rfl | ⟨front, last, rfl⟩
  · exact Or.inr ⟨rfl, hjoin.symm⟩
  · rw [List.getLastD_concat]
    by_cases hlast : last = []
    · refine Or.inr ⟨hlast, ?_⟩
      cases front with
      | nil =>
          rw [hlast] at hjoin
          exact hjoin.symm
      | cons head tail =>
          -- otherwise the stripped path would end with a separator
          rw [hlast, List.cons_append, intercalate_eq_render, render_append,
            ← List.append_assoc] at hjoin
          have hend : stripped = (head ++ render '/' tail) ++ ['/'] := hjoin.symm
          have hne : path.rdropWhile (· == '/') ≠ [] := by simp [hstripped, hend]
          have hother := List.rdropWhile_last_not (· == '/') path hne
          simp only [hstripped, hend, List.getLast_concat, beq_self_eq_true, not_true] at hother
    · exact Or.inl (hparts last (by simp) hlast)

theorem parentPath_of_separators {path : Str} (h : path.rdropWhile (· == '/') = []) :
    parentPath path = ['/'] := by
  rw [parentPath, h]
  rfl

theorem pathNames_of_separators {path : Str} (h : path.rdropWhile (· == '/') = []) :
    pathNames path = [] := by
  apply List.eq_nil_iff_forall_not_mem.mpr
  intro name hname
  -- a name has a letter of the path that is no separator
  obtain ⟨hne, hsep⟩ := isComponent_of_mem_pathNames hname
  obtain ⟨c, hc⟩ := List.exists_mem_of_ne_nil name hne
  have hmem : c ∈ (pathNames path).flatten := List.mem_flatten.mpr ⟨name, hname, hc⟩
  rw [pathNames, flatten_components] at hmem
  have hpath := List.mem_of_mem_drop (List.mem_of_mem_filter hmem)
  have hslash : c = '/' := by simpa using List.rdropWhile_eq_nil_iff.mp h c hpath
  exact hsep (hslash ▸ hc)

inductive FileRequest
  | mkdir (path : Str)
  | createFile (path : Str) (content : Bytes)
  | writePath (path : Str) (data : Bytes)
  | readPath (path : Str) (size : Int)
  | stat (path : Str)
  | readdir (path : Str)
  | open_ (path flags : Str)
  | read (fd size : Int)
  | write (fd : Int) (data : Bytes)
  | close (fd : Int)

inductive FileReply
  | flag (value : Bool)
  | count (value : Int)
  | data (value : Option Bytes)
  | node (value : Option (InodeType × Int × Bytes))
  | names (value : List Str)
  | raised (error : FsError)
  deriving DecidableEq

structure FileStore where
  tree : NameTree Str Node
  listing : List Str → List Str
  handles : Int → Option (List Str × Int)
  nextFd : Int

namespace FileStore

def init : FileStore where
  tree names := if names = [] then some (.dir, []) else none
  listing _ := []
  handles _ := none
  nextFd := 3

open Classical in
noncomputable def attach (s : FileStore) (names : List Str) (node : Node) : FileStore :=
  if NameTree.CanAttach Node.IsDir s.tree names then
    { s with
      tree := Function.update s.tree names (some node)
      listing := Function.update s.listing names.dropLast
        (s.listing names.dropLast ++ [names.getLastD []]) }
  else s

def put (s : FileStore) (names : List Str) (data : Bytes) : FileStore :=
  { s with tree := Function.update s.tree names (some (.file, data)) }

def advance (s : FileStore) (fd n : Int) : FileStore :=
  { s with
    handles := fun other =>
      (s.handles other).map fun handle =>
        if other = fd then (handle.1, handle.2 + n) else handle }

def openAt (s : FileStore) (names : List Str) (flags : Str) : FileReply × FileStore :=
  let position : Int :=
    if 'a' ∈ flags then ((s.tree names).map fun node => (node.2.length : Int)).getD 0 else 0
  (.count s.nextFd,
    { s with
      handles := Function.update s.handles s.nextFd (some (names, position))
      nextFd := s.nextFd + 1 })

open Classical in
noncomputable def make (s : FileStore) (names : List Str) (node : Node) : Bool × FileStore :=
  (decide (NameTree.CanAttach Node.IsDir s.tree names), s.attach names node)

open Classical in
theorem make_of_can {s : FileStore} {names : List Str}
    (h : NameTree.CanAttach Node.IsDir s.tree names) (node : Node) :
    s.make names node = (true, s.attach names node) := by
  rw [make, decide_eq_true h]

open Classical in
theorem make_of_not_can {s : FileStore} {names : List Str}
    (h : ¬ NameTree.CanAttach Node.IsDir s.tree names) (node : Node) :
    s.make names node = (false, s) := by
  rw [make, decide_eq_false h, attach, if_neg h]

/-- Opening a directory for writing makes a file in it, named like the directory. -/
noncomputable def open_ (s : FileStore) (path flags : Str) : FileReply × FileStore :=
  match s.tree (pathNames path) with
  | none => (.count (-2), s)
  | some node =>
      if VFS.Writes flags ∧ node.1 = .dir then
        let names := pathNames path ++ [baseName path]
        (s.attach names (.file, [])).openAt names flags
      else s.openAt (pathNames path) flags

def read (s : FileStore) (fd size : Int) : FileReply × FileStore :=
  match s.handles fd with
  | none => (.data (some []), s)
  | some (names, position) =>
      match s.tree names with
      | some (.file, content) =>
          let data := slice content position (position + size)
          (.data (some data), s.advance fd data.length)
      | _ => (.data (some []), s)

def write (s : FileStore) (fd : Int) (data : Bytes) : FileReply × FileStore :=
  match s.handles fd with
  | none => (.count (-9), s)
  | some (names, position) =>
      match s.tree names with
      | some (.file, content) =>
          (.count data.length,
            (s.put names (spliceAt content position data)).advance fd data.length)
      | _ => (.count (-22), s)

noncomputable def writePath (s : FileStore) (path : Str) (data : Bytes) :
    FileReply × FileStore :=
  match s.tree (pathNames path) with
  | none =>
      let (created, s) := s.make (newNames path) (.file, data)
      (.count (if created then data.length else -2), s)
  | some (.file, content) =>
      (.count data.length, s.put (pathNames path) (spliceAt content 0 data))
  | some _ => (.count (-22), s)

def readPath (s : FileStore) (path : Str) (size : Int) : Option Bytes :=
  match s.tree (pathNames path) with
  | some (.file, content) => some (slice content 0 (0 + size))
  | _ => none

def readdir (s : FileStore) (path : Str) : List Str :=
  match s.tree (pathNames path) with
  | some (.dir, _) => ".".toList :: "..".toList :: s.listing (pathNames path)
  | _ => []

def close (s : FileStore) (fd : Int) : Bool × FileStore :=
  ((s.handles fd).isSome, { s with handles := Function.update s.handles fd none })

noncomputable def serve (s : FileStore) : FileRequest → FileReply × FileStore
  | .mkdir path =>
      let (created, s) := s.make (newNames path) (.dir, [])
      (.flag created, s)
  | .createFile path content =>
      let (created, s) := s.make (newNames path) (.file, content)
      (.flag created, s)
  | .writePath path data => s.writePath path data
  | .readPath path size => (.data (s.readPath path size), s)
  | .stat path =>
      (.node ((s.tree (pathNames path)).map fun node => (node.1, node.2.length, node.2)), s)
  | .readdir path => (.names (s.readdir path), s)
  | .open_ path flags => s.open_ path flags
  | .read fd size => s.read fd size
  | .write fd data => s.write fd data
  | .close fd =>
      let (closed, s) := s.close fd
      (.flag closed, s)

/-! ## Listed names -/

def Placed (names : List Str) : Prop :=
  IsComponent '/' (names.getLastD []) ∨ (names.getLastD [] = [] ∧ names.dropLast = [])

theorem placed_newNames (path : Str) : Placed (newNames path) := by
  unfold Placed newNames
  rw [List.getLastD_concat, List.dropLast_concat]
  rcases baseName_cases path with hname | ⟨hname, hpath⟩
  · exact Or.inl hname
  · rw [parentPath_of_separators hpath]
    exact Or.inr ⟨hname, by decide⟩

theorem placed_opened (path : Str) : Placed (pathNames path ++ [baseName path]) := by
  unfold Placed
  rw [List.getLastD_concat, List.dropLast_concat]
  rcases baseName_cases path with hname | ⟨hname, hpath⟩
  · exact Or.inl hname
  · exact Or.inr ⟨hname, pathNames_of_separators hpath⟩

/-- Directories list components; only the root may list the empty name. -/
def Named (s : FileStore) : Prop :=
  ∀ names name, name ∈ s.listing names → IsComponent '/' name ∨ (name = [] ∧ names = [])

variable {s : FileStore}

theorem Named.attach (h : s.Named) {names : List Str} (hplaced : Placed names) (node : Node) :
    (s.attach names node).Named := by
  unfold FileStore.attach
  split
  · intro dir name hname
    dsimp only at hname
    by_cases hdir : dir = names.dropLast
    · rw [hdir, Function.update_self] at hname
      rw [hdir]
      rcases List.mem_append.mp hname with hold | hnew
      · exact h _ name hold
      · rw [List.mem_singleton.mp hnew]
        exact hplaced
    · rw [Function.update_of_ne hdir] at hname
      exact h dir name hname
  · exact h

theorem Named.open_ (h : s.Named) (path flags : Str) : (s.open_ path flags).2.Named := by
  unfold FileStore.open_
  split
  · exact h
  · split
    · exact h.attach (placed_opened path) _
    · exact h

theorem Named.read (h : s.Named) (fd size : Int) : (s.read fd size).2.Named := by
  unfold FileStore.read
  split
  · exact h
  · split
    · exact h
    · exact h

theorem Named.write (h : s.Named) (fd : Int) (data : Bytes) : (s.write fd data).2.Named := by
  unfold FileStore.write
  split
  · exact h
  · split
    · exact h
    · exact h

theorem Named.writePath (h : s.Named) (path : Str) (data : Bytes) :
    (s.writePath path data).2.Named := by
  unfold FileStore.writePath
  split
  · exact h.attach (placed_newNames path) _
  · exact h
  · exact h

theorem named_serve (s : FileStore) (request : FileRequest) (h : s.Named) :
    (s.serve request).2.Named := by
  cases request with
  | mkdir path => exact h.attach (placed_newNames path) _
  | createFile path content => exact h.attach (placed_newNames path) _
  | writePath path data => exact h.writePath path data
  | readPath path size => exact h
  | stat path => exact h
  | readdir path => exact h
  | open_ path flags => exact h.open_ path flags
  | read fd size => exact h.read fd size
  | write fd data => exact h.write fd data
  | close fd => exact h

theorem named_after (requests : List FileRequest) : (Service.after serve init requests).Named :=
  Run.run_invariant named_serve (fun _ _ h => absurd h List.not_mem_nil) requests

end FileStore

namespace VFS

variable {ρ F : Type}

def openReply : Except FsError Int × VFS ρ F → FileReply × VFS ρ F
  | (.ok fd, vfs) => (.count fd, vfs)
  | (.error error, vfs) => (.raised error, vfs)

/-- The reply of the VFS to a request, without inode numbers, and the VFS after it. -/
def respond [Filesystem F] [DecidableEq ρ] (vfs : VFS ρ F) : FileRequest → FileReply × VFS ρ F
  | .mkdir path =>
      let (created, vfs) := vfs.mkdir path
      (.flag created, vfs)
  | .createFile path content =>
      let (created, vfs) := vfs.createFile path content
      (.flag created, vfs)
  | .writePath path data =>
      let (n, vfs) := vfs.writePath path data
      (.count n, vfs)
  | .readPath path size => (.data (vfs.readPath path size), vfs)
  | .stat path =>
      (.node ((vfs.stat path).map fun inode => (inode.itype, inode.size, inode.data)), vfs)
  | .readdir path => (.names ((vfs.readdir path).map Prod.fst), vfs)
  | .open_ path flags => openReply (vfs.open_ path flags)
  | .read fd size =>
      let (data, vfs) := vfs.read fd size
      (.data (some data), vfs)
  | .write fd data =>
      let (n, vfs) := vfs.write fd data
      (.count n, vfs)
  | .close fd =>
      let (closed, vfs) := vfs.close fd
      (.flag closed, vfs)

end VFS

end ComputeKernel.Vfs
