import ComputeKernel.Vfs.FileForest
import ComputeKernel.Vfs.Names
import ComputeKernel.Vfs.Refinement

/-!
# Mounted filesystems

A VFS with any number of mounts looks, from each of its filesystems, like a VFS that has this
one alone at `/`.  So it is a forest of file stores, and the mount table is the route to them.
-/

namespace ComputeKernel.Vfs

open Lib Lib.Path Fs

structure OpenFile.Same (file other : OpenFile) : Prop where
  ino : other.ino = file.ino
  position : other.position = file.position

namespace VFS

variable {ρ : Type} [DecidableEq ρ]

def openOn (vfs : VFS ρ TmpFS) (ref : ρ) (fd : Int) : Option OpenFile :=
  (vfs.openFiles.get? fd).filter fun file => vfs.fsOf file.path = some ref

/-- The filesystem alone, with the open files that lie on it. -/
structure View (vfs : VFS ρ TmpFS) (ref : ρ) (view : VFS Unit TmpFS) : Prop where
  fs : view.filesystems () = vfs.filesystems ref
  openFiles : ∀ fd, Option.Rel OpenFile.Same (vfs.openOn ref fd) (view.openFiles.get? fd)

structure Branches (route : Str → Option (ρ × List Str)) (vfs : VFS ρ TmpFS)
    (s : FileForest ρ) : Prop where
  names : vfs.names = route
  part : ∀ ref, ∃ view, View vfs ref view ∧ Represents view (s.focus ref)
  owner : ∀ fd, Option.Rel (fun file ref => vfs.fsOf file.path = some ref)
    (vfs.openFiles.get? fd) (s.owner fd)
  fresh : ∀ fd ∈ vfs.openFiles, fd < vfs.nextFd
  nextFd : vfs.nextFd = s.nextFd

/-! ## Routes -/

omit [DecidableEq ρ] in
theorem isComponent_of_names {vfs : VFS ρ TmpFS} {path : Str} {ref : ρ} {names : List Str}
    (h : vfs.names path = some (ref, names)) : ∀ name ∈ names, IsComponent '/' name := by
  obtain ⟨mp, -, hmp⟩ := Option.map_eq_some_iff.mp h
  cases hmp
  exact fun name => isComponent_of_mem

omit [DecidableEq ρ] in
theorem fsOf_of_names {vfs : VFS ρ TmpFS} {path : Str} {ref : ρ} {names : List Str}
    (h : vfs.names path = some (ref, names)) : vfs.fsOf path = some ref := by
  obtain ⟨mp, hbest, hmp⟩ := Option.map_eq_some_iff.mp h
  cases hmp
  rw [fsOf, hbest, Option.map_some]

omit [DecidableEq ρ] in
theorem resolve?_of_names_eq_none {vfs : VFS ρ TmpFS} {path : Str} (h : vfs.names path = none) :
    vfs.resolve? path = none := by
  unfold resolve?
  rw [resolvePath_of_names_eq_none h]

theorem pathNames_spell {names : List Str} (h : ∀ name ∈ names, IsComponent '/' name) :
    pathNames (spell '/' names) = names := by
  rw [pathNames_of_normalized (normalized_spell h), components_spell h]

omit [DecidableEq ρ] in
theorem exists_newNames {vfs : VFS ρ TmpFS} {path : Str} {ref : ρ} {names : List Str}
    (h : vfs.names (parentPath path) = some (ref, names)) :
    ∃ localPath, pathNames (parentPath localPath) = names ∧ baseName localPath = baseName path := by
  have hnames := isComponent_of_names h
  rcases baseName_cases path with hbase | ⟨hbase, hpath⟩
  · have hall : ∀ c ∈ names ++ [baseName path], IsComponent '/' c := by
      intro c hc
      rcases List.mem_append.mp hc with hc | hc
      · exact hnames c hc
      · rw [List.mem_singleton.mp hc]
        exact hbase
    refine ⟨spell '/' (names ++ [baseName path]), ?_, baseName_spell hall⟩
    rw [parentPath_spell hall, pathNames_spell hnames]
  · refine ⟨['/'], ?_, by rw [hbase]; decide⟩
    obtain ⟨mp, -, hmp⟩ := Option.map_eq_some_iff.mp h
    cases hmp
    rw [parentPath_of_separators hpath, walkedNames]
    cases mp.mountpoint.length with
    | zero => decide
    | succ n => simp [pathNames, show parentPath ['/'] = ['/'] by decide]

namespace View

variable {vfs : VFS ρ TmpFS} {ref : ρ} {view : VFS Unit TmpFS} {path localPath : Str}

theorem resolve_eq (h : View vfs ref view) (hrooted : Rooted view)
    (hnames : vfs.names path = some (ref, pathNames localPath)) :
    vfs.resolve? path = (view.resolve? localPath).map fun found => (ref, found.2) := by
  have hroot : Filesystem.rootIno (vfs.filesystems ref) = 1 := rfl
  unfold resolve?
  rw [resolvePath_of_names hnames, hrooted.resolvePath_drop, hroot, h.fs]
  dsimp only [pathNames]
  split
  · rfl
  · rfl

theorem leads_cases {s : FileStore} (h : View vfs ref view) (hs : Represents view s)
    {names : List Str} (hnames : vfs.names path = some (ref, names)) :
    (∃ inode, vfs.resolve? path = some (ref, inode.ino) ∧ view.Leads names inode.ino ∧
      (view.filesystems ()).inodes.get? inode.ino = some inode ∧
      s.tree names = some (inode.itype, inode.data)) ∨
    (vfs.resolve? path = none ∧ s.tree names = none) := by
  have hlocal := pathNames_spell (isComponent_of_names hnames)
  rw [← hlocal] at hnames
  rw [h.resolve_eq hs.rooted hnames, ← hs.tree]
  rcases hs.rooted.leads_cases (spell '/' names) with
    ⟨ino, inode, hresolve, hleads, hget, htree⟩ | ⟨hresolve, hnone⟩
  · obtain rfl := (hs.rooted.inv.keyed hget).1
    rw [hlocal] at hleads htree
    refine Or.inl ⟨inode, ?_, hleads, hget, htree⟩
    rw [hresolve, Option.map_some]
  · rw [hlocal] at hnone
    refine Or.inr ⟨?_, hnone⟩
    rw [hresolve, Option.map_none]

/-! ## What changes the VFS -/

theorem setFs (h : View vfs ref view) (fs : TmpFS) :
    View (vfs.setFs ref fs) ref (view.setFs () fs) where
  fs := by
    rw [filesystems_setFs]
    exact (Function.update_self ref fs vfs.filesystems).symm
  openFiles := h.openFiles

theorem setFs_of_ne {other : ρ} (h : View vfs other view) (hne : other ≠ ref) (fs : TmpFS) :
    View (vfs.setFs ref fs) other view where
  fs := by
    rw [h.fs]
    exact (Function.update_of_ne hne fs vfs.filesystems).symm
  openFiles := h.openFiles

theorem openOn_advance (vfs : VFS ρ TmpFS) (ref : ρ) (fd n other : Int) :
    (vfs.advance fd n).openOn ref other = (vfs.openOn ref other).map fun file =>
      if other = fd then { file with position := file.position + n } else file := by
  have hget : (vfs.advance fd n).openFiles.get? other = (vfs.openFiles.get? other).map _ :=
    Dict.get?_modify_eq_map _ _ _ _
  have hfs : (vfs.advance fd n).fsOf = vfs.fsOf := rfl
  rw [openOn, openOn, hget, hfs]
  cases vfs.openFiles.get? other with
  | none => rfl
  | some file =>
      rw [Option.map_some, Option.filter_some, Option.filter_some]
      have hpath : (if other = fd then { file with position := file.position + n } else file).path =
          file.path := by
        split
        · rfl
        · rfl
      rw [hpath]
      split
      · rfl
      · rfl

theorem advance (h : View vfs ref view) (fd n : Int) :
    View (vfs.advance fd n) ref (view.advance fd n) where
  fs := h.fs
  openFiles other := by
    have hother := h.openFiles other
    rw [openOn_advance, get?_advance]
    revert hother
    generalize vfs.openOn ref other = file
    generalize view.openFiles.get? other = file'
    intro hother
    cases hother with
    | none => exact .none
    | some hfile =>
        refine .some ?_
        dsimp only
        split
        · exact ⟨hfile.ino, congrArg (· + n) hfile.position⟩
        · exact hfile

theorem advance_of_none (h : View vfs ref view) {fd : Int} (hnone : vfs.openOn ref fd = none)
    (n : Int) : View (vfs.advance fd n) ref view where
  fs := h.fs
  openFiles other := by
    have hother := h.openFiles other
    rw [openOn_advance]
    by_cases hfd : other = fd
    · rw [hfd, hnone] at hother ⊢
      exact hother
    · simpa only [if_neg hfd, Option.map_id'] using hother

theorem addOpenFile (h : View vfs ref view) (hnext : view.nextFd = vfs.nextFd)
    (hfs : vfs.fsOf path = some ref) (flags : Str) (inode : Inode) :
    View (vfs.addOpenFile path flags ref inode) ref
      (view.addOpenFile localPath flags () inode) where
  fs := h.fs
  openFiles fd := by
    change Option.Rel _ (Option.filter _ ((vfs.openFiles.set vfs.nextFd _).get? fd))
      ((view.openFiles.set view.nextFd _).get? fd)
    rw [Dict.get?_set, Dict.get?_set, hnext]
    split
    · rw [Option.filter_some, if_pos]
      · exact .some ⟨rfl, rfl⟩
      · exact decide_eq_true hfs
    · exact h.openFiles fd

theorem addOpenFile_of_ne {other : ρ} (h : View vfs other view) (hne : other ≠ ref)
    (hfs : vfs.fsOf path = some ref) (hfresh : vfs.openFiles.get? vfs.nextFd = none)
    (flags : Str) (inode : Inode) : View (vfs.addOpenFile path flags ref inode) other view where
  fs := h.fs
  openFiles fd := by
    have hfd := h.openFiles fd
    change Option.Rel _ (Option.filter _ ((vfs.openFiles.set vfs.nextFd _).get? fd)) _
    rw [Dict.get?_set]
    split
    · rename_i hnew
      rw [hnew, openOn, hfresh] at hfd
      rw [Option.filter_some, if_neg, hnew]
      · exact hfd
      · intro hsame
        exact hne (Option.some.inj ((of_decide_eq_true hsame).symm.trans hfs))
    · exact hfd

theorem erase (h : View vfs ref view) (fd : Int) :
    View { vfs with openFiles := vfs.openFiles.erase fd } ref
      { view with openFiles := view.openFiles.erase fd } where
  fs := h.fs
  openFiles other := by
    change Option.Rel _ (Option.filter _ ((vfs.openFiles.erase fd).get? other))
      ((view.openFiles.erase fd).get? other)
    rw [Dict.get?_erase, Dict.get?_erase]
    split
    · exact .none
    · exact h.openFiles other

theorem erase_of_none (h : View vfs ref view) {fd : Int} (hnone : vfs.openOn ref fd = none) :
    View { vfs with openFiles := vfs.openFiles.erase fd } ref view where
  fs := h.fs
  openFiles other := by
    have hother := h.openFiles other
    change Option.Rel _ (Option.filter _ ((vfs.openFiles.erase fd).get? other)) _
    rw [Dict.get?_erase]
    split
    · rename_i hfd
      rw [hfd, hnone] at hother
      rw [hfd]
      exact hother
    · exact hother

/-! ## Descriptors -/

section Descriptors

variable {fd : Int} {file : OpenFile}

theorem file_eq (h : View vfs ref view) (hfile : vfs.openFiles.get? fd = some file)
    (hfs : vfs.fsOf file.path = some ref) :
    ∃ file', view.openFiles.get? fd = some file' ∧ OpenFile.Same file file' := by
  have hfd := h.openFiles fd
  rw [openOn, hfile, Option.filter_some, if_pos (decide_eq_true hfs)] at hfd
  revert hfd
  generalize view.openFiles.get? fd = other
  intro hfd
  cases hfd with
  | some hsame => exact ⟨_, rfl, hsame⟩

theorem read (h : View vfs ref view) (hrooted : Rooted view)
    (hfile : vfs.openFiles.get? fd = some file) (hfs : vfs.fsOf file.path = some ref)
    (size : Int) :
    ∃ data : Bytes, vfs.read fd size = (data, vfs.advance fd data.length) ∧
      view.read fd size = (data, view.advance fd data.length) := by
  obtain ⟨file', hfile', hsame⟩ := h.file_eq hfile hfs
  unfold VFS.read
  rw [hfile, hfile']
  dsimp only
  rw [VFS.resolvePath_fst, hfs, hrooted.resolvePath_drop, hsame.ino, hsame.position]
  dsimp only
  rw [h.fs]
  exact ⟨_, rfl, rfl⟩

theorem write (h : View vfs ref view) (hrooted : Rooted view)
    (hfile : vfs.openFiles.get? fd = some file) (hfs : vfs.fsOf file.path = some ref)
    (data : Bytes) :
    ∃ n fs,
      vfs.write fd data =
        (n, if n > 0 then (vfs.setFs ref fs).advance fd n else vfs.setFs ref fs) ∧
      view.write fd data =
        (n, if n > 0 then (view.setFs () fs).advance fd n else view.setFs () fs) := by
  obtain ⟨file', hfile', hsame⟩ := h.file_eq hfile hfs
  unfold VFS.write
  rw [hfile, hfile']
  dsimp only
  rw [VFS.resolvePath_fst, hfs, hrooted.resolvePath_drop, hsame.ino, hsame.position]
  dsimp only
  rw [h.fs]
  exact ⟨_, _, rfl, rfl⟩

end Descriptors

/-! ## Creations -/

theorem mkdir (h : View vfs ref view) (hrooted : Rooted view)
    (hnames : vfs.names (parentPath path) = some (ref, pathNames (parentPath localPath)))
    (hbase : baseName localPath = baseName path) :
    ∃ created fs, vfs.mkdir path = (created, vfs.setFs ref fs) ∧
      view.mkdir localPath = (created, view.setFs () fs) := by
  unfold VFS.mkdir
  rw [h.resolve_eq hrooted hnames, hbase]
  rcases view.resolve? (parentPath localPath) with _ | ⟨⟨⟩, ino⟩
  · refine ⟨false, vfs.filesystems ref, by rw [setFs_self]; rfl, ?_⟩
    rw [← h.fs, setFs_self]
  · dsimp only [Option.map_some]
    rw [h.fs]
    rcases Filesystem.mkdir (vfs.filesystems ref) ino (baseName path) with ⟨error | inode, fs⟩
    · exact ⟨false, fs, rfl, rfl⟩
    · exact ⟨true, fs, rfl, rfl⟩

theorem createFile (h : View vfs ref view) (hrooted : Rooted view)
    (hnames : vfs.names (parentPath path) = some (ref, pathNames (parentPath localPath)))
    (hbase : baseName localPath = baseName path) (content : Bytes) :
    ∃ created fs, vfs.createFile path content = (created, vfs.setFs ref fs) ∧
      view.createFile localPath content = (created, view.setFs () fs) := by
  unfold VFS.createFile
  rw [h.resolve_eq hrooted hnames, hbase]
  rcases view.resolve? (parentPath localPath) with _ | ⟨⟨⟩, ino⟩
  · refine ⟨false, vfs.filesystems ref, by rw [setFs_self]; rfl, ?_⟩
    rw [← h.fs, setFs_self]
  · dsimp only [Option.map_some]
    rw [h.fs]
    rcases Filesystem.create (vfs.filesystems ref) ino (baseName path) .file with
      ⟨error | inode, fs⟩
    · exact ⟨false, fs, rfl, rfl⟩
    · exact ⟨true, fill fs inode.ino content, rfl, rfl⟩

end View

namespace Branches

variable {route : Str → Option (ρ × List Str)} {vfs vfs' : VFS ρ TmpFS} {s : FileForest ρ}
  {ref : ρ} {view : VFS Unit TmpFS} {store : FileStore} {path : Str}

theorem part_put (h : Branches route vfs s) (hview : View vfs' ref view)
    (hrep : Represents view store)
    (hothers : ∀ other, other ≠ ref → ∀ v, View vfs other v → View vfs' other v) (other : ρ) :
    ∃ view, View vfs' other view ∧ Represents view ((s.put ref store).focus other) := by
  by_cases hother : other = ref
  · subst hother
    refine ⟨view, hview, ?_⟩
    rw [FileForest.focus_put]
    exact hrep
  · obtain ⟨v, hv, hrepv⟩ := h.part other
    have hold := hothers other hother v hv
    refine ⟨{ v with nextFd := store.nextFd }, ⟨hold.fs, hold.openFiles⟩, ?_⟩
    have hsame : (s.put ref store).focus other =
        { s.focus other with nextFd := store.nextFd } := by
      unfold FileForest.focus FileForest.put
      dsimp only
      rw [Function.update_of_ne hother]
    rw [hsame]
    exact
      { rooted := hrepv.rooted.of_same rfl rfl
        tree := hrepv.tree
        listing := hrepv.listing
        unlisted := hrepv.unlisted
        handles := hrepv.handles
        nextFd := rfl }

theorem nextFd_part (h : Branches route vfs s) (hrep : Represents view (s.focus ref)) :
    view.nextFd = vfs.nextFd :=
  hrep.nextFd.trans h.nextFd.symm

theorem setFs (h : Branches route vfs s) (hview : View vfs ref view)
    (hnext : view.nextFd = vfs.nextFd) {fs : TmpFS}
    (hrep : Represents (view.setFs () fs) store) :
    Branches route (vfs.setFs ref fs) (s.put ref store) where
  names := h.names
  part := h.part_put (hview.setFs fs) hrep fun _ hne _ hv => hv.setFs_of_ne hne fs
  owner := h.owner
  fresh := h.fresh
  nextFd := hnext.symm.trans hrep.nextFd

theorem openOn_eq_none (h : Branches route vfs s) {fd : Int}
    (howner : s.owner fd = some ref) {other : ρ} (hne : other ≠ ref) :
    vfs.openOn other fd = none := by
  have hfd := h.owner fd
  unfold openOn
  rw [howner] at hfd
  revert hfd
  generalize vfs.openFiles.get? fd = file
  intro hfd
  cases hfd with
  | some hfs =>
      rw [Option.filter_some, if_neg]
      intro hsame
      exact hne (Option.some.inj ((of_decide_eq_true hsame).symm.trans hfs))

theorem advance (h : Branches route vfs s) (hview : View vfs ref view)
    (hnext : view.nextFd = vfs.nextFd) {fd : Int} (howner : s.owner fd = some ref) {fs : TmpFS}
    {n : Int} (hrep : Represents ((view.setFs () fs).advance fd n) store) :
    Branches route ((vfs.setFs ref fs).advance fd n) (s.put ref store) where
  names := h.names
  part := h.part_put ((hview.setFs fs).advance fd n) hrep fun _ hne _ hv =>
    (hv.setFs_of_ne hne fs).advance_of_none (h.openOn_eq_none howner hne) n
  owner other := by
    have hother := h.owner other
    have hget : ((vfs.setFs ref fs).advance fd n).openFiles.get? other =
        (vfs.openFiles.get? other).map _ := Dict.get?_modify_eq_map _ _ _ _
    have hfs : ((vfs.setFs ref fs).advance fd n).fsOf = vfs.fsOf := rfl
    rw [hget, hfs]
    change Option.Rel _ _ (s.owner other)
    revert hother
    generalize vfs.openFiles.get? other = file
    generalize s.owner other = owner
    intro hother
    cases hother with
    | none => exact .none
    | some hfile =>
        refine .some ?_
        dsimp only
        split
        · exact hfile
        · exact hfile
  fresh other hother := h.fresh other (Dict.mem_modify.mp hother)
  nextFd := hnext.symm.trans hrep.nextFd

theorem addOpenFile (h : Branches route vfs s) (hview : View vfs ref view)
    (hrep : Represents view (s.focus ref)) {names : List Str} {inode : Inode}
    (hleads : view.Leads names inode.ino)
    (hget : (view.filesystems ()).inodes.get? inode.ino = some inode)
    (hfs : vfs.fsOf path = some ref) (flags : Str) :
    Branches route (vfs.addOpenFile path flags ref inode)
      (s.grant ref ((s.focus ref).openAt names flags)).2 where
  names := h.names
  part := by
    have hfresh : vfs.openFiles.get? vfs.nextFd = none :=
      Dict.get?_eq_none.mpr fun hmem => absurd (h.fresh _ hmem) (Int.lt_irrefl _)
    exact h.part_put (hview.addOpenFile (h.nextFd_part hrep) hfs flags inode)
      (hrep.addOpenFile hleads hget path flags) fun _ hne _ hv =>
        hv.addOpenFile_of_ne hne hfs hfresh flags inode
  owner fd := by
    change Option.Rel _ ((vfs.openFiles.set vfs.nextFd _).get? fd)
      (Function.update s.owner s.nextFd (some ref) fd)
    rw [Dict.get?_set, h.nextFd]
    by_cases hfd : fd = s.nextFd
    · rw [if_pos hfd, hfd, Function.update_self]
      exact .some hfs
    · rw [if_neg hfd, Function.update_of_ne hfd]
      exact h.owner fd
  fresh fd hmem := by
    change fd < vfs.nextFd + 1
    rcases Dict.mem_set.mp hmem with rfl | hold
    · omega
    · have := h.fresh fd hold
      omega
  nextFd := congrArg (· + 1) h.nextFd

theorem erase (h : Branches route vfs s) (hview : View vfs ref view)
    (hnext : view.nextFd = vfs.nextFd) {fd : Int} (howner : s.owner fd = some ref)
    (hrep : Represents { view with openFiles := view.openFiles.erase fd } store) :
    Branches route { vfs with openFiles := vfs.openFiles.erase fd }
      { s.put ref store with owner := Function.update s.owner fd none } where
  names := h.names
  part := h.part_put (hview.erase fd) hrep fun _ hne _ hv =>
    hv.erase_of_none (h.openOn_eq_none howner hne)
  owner other := by
    change Option.Rel _ ((vfs.openFiles.erase fd).get? other)
      (Function.update s.owner fd none other)
    rw [Dict.get?_erase]
    by_cases hother : other = fd
    · rw [if_pos hother, hother, Function.update_self]
      exact .none
    · rw [if_neg hother, Function.update_of_ne hother]
      exact h.owner other
  fresh other hother := h.fresh other (Dict.mem_erase.mp hother).2
  nextFd := hnext.symm.trans hrep.nextFd

theorem find_eq (h : Branches route vfs s) {names : List Str}
    (hnames : vfs.names path = some (ref, names)) :
    s.find route path = ((s.focus ref).tree names).map fun node => (ref, names, node) := by
  obtain rfl := h.names
  rw [FileForest.find, hnames]
  rfl

theorem create (h : Branches route vfs s) {node : Node} {result : Bool × VFS ρ TmpFS}
    (hnone : vfs.names (parentPath path) = none → result = (false, vfs))
    (hsome : ∀ {ref view localPath}, View vfs ref view → Represents view (s.focus ref) →
      vfs.names (parentPath path) = some (ref, pathNames (parentPath localPath)) →
      baseName localPath = baseName path →
      ∃ fs, result = (((s.focus ref).make (newNames localPath) node).1, vfs.setFs ref fs) ∧
        Represents (view.setFs () fs) ((s.focus ref).make (newNames localPath) node).2) :
    result.1 = (s.make route path node).1 ∧
      Branches route result.2 (s.make route path node).2 := by
  obtain rfl := h.names
  unfold FileForest.make
  cases hnames : vfs.names (parentPath path) with
  | none =>
      rw [hnone hnames]
      exact ⟨rfl, h⟩
  | some found =>
      obtain ⟨ref, names⟩ := found
      obtain ⟨view, hview, hrep⟩ := h.part ref
      obtain ⟨localPath, hparent, hbase⟩ := exists_newNames hnames
      rw [← hparent] at hnames
      obtain ⟨fs, hresult, hafter⟩ := hsome hview hrep hnames hbase
      rw [hresult]
      dsimp only
      rw [newNames, hparent, hbase] at hafter ⊢
      exact ⟨rfl, h.setFs hview (h.nextFd_part hrep) hafter⟩

theorem mkdir (h : Branches route vfs s) (path : Str) :
    (vfs.mkdir path).1 = (s.make route path (.dir, [])).1 ∧
      Branches route (vfs.mkdir path).2 (s.make route path (.dir, [])).2 := by
  apply h.create
  · intro hnone
    unfold VFS.mkdir
    rw [resolve?_of_names_eq_none hnone]
  · intro ref view localPath hview hrep hnames hbase
    obtain ⟨created, fs, hresult, hlocal⟩ := hview.mkdir hrep.rooted hnames hbase
    obtain ⟨hcreated, hafter⟩ := hrep.mkdir localPath
    rw [hlocal] at hcreated hafter
    exact ⟨fs, hcreated ▸ hresult, hafter⟩

theorem createFile (h : Branches route vfs s) (path : Str) (content : Bytes) :
    (vfs.createFile path content).1 = (s.make route path (.file, content)).1 ∧
      Branches route (vfs.createFile path content).2
        (s.make route path (.file, content)).2 := by
  apply h.create
  · intro hnone
    unfold VFS.createFile
    rw [resolve?_of_names_eq_none hnone]
  · intro ref view localPath hview hrep hnames hbase
    obtain ⟨created, fs, hresult, hlocal⟩ := hview.createFile hrep.rooted hnames hbase content
    obtain ⟨hcreated, hafter⟩ := hrep.createFile localPath content
    rw [hlocal] at hcreated hafter
    exact ⟨fs, hcreated ▸ hresult, hafter⟩

/-! ## Paths -/

theorem leads_cases (h : Branches vfs.names vfs s) (path : Str) :
    (∃ ref names view inode, vfs.names path = some (ref, names) ∧ View vfs ref view ∧
      Represents view (s.focus ref) ∧ vfs.resolve? path = some (ref, inode.ino) ∧
      view.Leads names inode.ino ∧ (view.filesystems ()).inodes.get? inode.ino = some inode ∧
      (s.focus ref).tree names = some (inode.itype, inode.data) ∧
      s.find vfs.names path = some (ref, names, inode.itype, inode.data)) ∨
    (vfs.resolve? path = none ∧ s.find vfs.names path = none) := by
  cases hnames : vfs.names path with
  | none =>
      refine Or.inr ⟨resolve?_of_names_eq_none hnames, ?_⟩
      rw [FileForest.find, hnames]
      rfl
  | some found =>
      obtain ⟨ref, names⟩ := found
      obtain ⟨view, hview, hrep⟩ := h.part ref
      rw [h.find_eq hnames]
      rcases hview.leads_cases hrep hnames with
        ⟨inode, hresolve, hleads, hget, htree⟩ | ⟨hresolve, hnone⟩
      · refine Or.inl
          ⟨ref, names, view, inode, rfl, hview, hrep, hresolve, hleads, hget, htree, ?_⟩
        rw [htree, Option.map_some]
      · refine Or.inr ⟨hresolve, ?_⟩
        rw [hnone, Option.map_none]

theorem writePath (h : Branches route vfs s) (path : Str) (data : Bytes) :
    FileReply.count (vfs.writePath path data).1 = (s.writePath route path data).1 ∧
      Branches route (vfs.writePath path data).2 (s.writePath route path data).2 := by
  obtain rfl := h.names
  unfold VFS.writePath FileForest.writePath
  rcases h.leads_cases path with
    ⟨ref, names, view, inode, -, hview, hrep, hresolve, hleads, hget, -, hfind⟩ |
      ⟨hresolve, hfind⟩
  · have hnext := h.nextFd_part hrep
    rw [hresolve, hfind]
    dsimp only
    rw [← hview.fs]
    by_cases hregular : inode.itype = .file
    · rw [Represents.write_of_file hget hregular, hregular]
      exact ⟨rfl, h.setFs hview hnext (hrep.put hleads hget hregular 0 data)⟩
    · rw [Represents.write_of_other hget hregular, hview.fs, setFs_self]
      dsimp only
      split
      · rename_i hnode
        exact absurd (congrArg (fun found => found.2.2.1) (Option.some.inj hnode)) hregular
      · exact ⟨rfl, h⟩
      · rename_i hnode
        cases hnode
  · rw [hresolve, hfind]
    obtain ⟨hcreated, hafter⟩ := h.createFile path data
    dsimp only
    rw [hcreated]
    exact ⟨rfl, hafter⟩

theorem readPath (h : Branches route vfs s) (path : Str) (size : Int) :
    vfs.readPath path size = s.readPath route path size := by
  obtain rfl := h.names
  unfold VFS.readPath FileForest.readPath
  rcases h.leads_cases path with
    ⟨ref, names, view, inode, -, hview, -, hresolve, -, hget, -, hfind⟩ | ⟨hresolve, hfind⟩
  · rw [hview.fs] at hget
    have hlookup : Filesystem.lookup (vfs.filesystems ref) inode.ino = some inode := hget
    have hread : Filesystem.read (vfs.filesystems ref) inode.ino 0 size =
        if inode.itype ≠ .file then [] else slice inode.data 0 (0 + size) := by
      change InodeTable.read _ _ _ _ = _
      rw [InodeTable.read, hget]
    rw [hresolve, hfind]
    dsimp only
    rw [hlookup, hread]
    dsimp only
    by_cases hregular : inode.itype = .file
    · rw [if_neg (not_not.mpr hregular), if_neg (not_not.mpr hregular), hregular]
    · rw [if_pos hregular]
      split
      · rename_i hnode
        exact absurd (congrArg (fun found => found.2.2.1) (Option.some.inj hnode)) hregular
      · rfl
  · rw [hresolve, hfind]

theorem stat (h : Branches route vfs s) (path : Str) :
    ((vfs.stat path).map fun inode => (inode.itype, inode.size, inode.data)) =
      (s.find route path).map fun found =>
        (found.2.2.1, (found.2.2.2.length : Int), found.2.2.2) := by
  obtain rfl := h.names
  unfold VFS.stat
  rcases h.leads_cases path with
    ⟨ref, names, view, inode, -, hview, hrep, hresolve, -, hget, -, hfind⟩ | ⟨hresolve, hfind⟩
  · have hsize := hrep.rooted.inv.size hget
    rw [hview.fs] at hget
    have hlookup : Filesystem.lookup (vfs.filesystems ref) inode.ino = some inode := hget
    rw [hresolve, hfind]
    dsimp only
    rw [hlookup, Option.map_some, Option.map_some, hsize]
  · rw [hresolve, hfind]
    rfl

theorem readdir (h : Branches route vfs s) (path : Str) :
    (vfs.readdir path).map Prod.fst = s.readdir route path := by
  obtain rfl := h.names
  unfold VFS.readdir FileForest.readdir
  rcases h.leads_cases path with
    ⟨ref, names, view, inode, -, hview, hrep, hresolve, hleads, hget, -, hfind⟩ |
      ⟨hresolve, hfind⟩
  · have hlisting := hrep.listing hleads
    rw [childNames_of_get? hget] at hlisting
    rw [hview.fs] at hget
    rw [hresolve, hfind]
    change (InodeTable.readdir (vfs.filesystems ref).inodes inode.ino).map Prod.fst = _
    rw [InodeTable.readdir, hget]
    dsimp only
    by_cases hdir : inode.itype = .dir
    · rw [if_neg (not_not.mpr hdir), hdir]
      change _ = _ :: _ :: (s.focus ref).listing names
      rw [← hlisting]
      rfl
    · rw [if_pos hdir]
      split
      · rename_i hnode
        exact absurd (congrArg (fun found => found.2.2.1) (Option.some.inj hnode)) hdir
      · rfl
  · rw [hresolve, hfind]
    rfl

theorem open_ (h : Branches route vfs s) (path flags : Str) :
    (openReply (vfs.open_ path flags)).1 = (s.open_ route path flags).1 ∧
      Branches route (openReply (vfs.open_ path flags)).2 (s.open_ route path flags).2 := by
  obtain rfl := h.names
  unfold FileForest.open_
  rcases h.leads_cases path with
    ⟨ref, names, view, inode, hnames, hview, hrep, hresolve, hleads, hget, -, hfind⟩ |
      ⟨hresolve, hfind⟩
  · have hnext := h.nextFd_part hrep
    have hfs := fsOf_of_names hnames
    have hlookup : Filesystem.lookup (vfs.filesystems ref) inode.ino = some inode :=
      hview.fs ▸ hget
    rw [hfind]
    dsimp only
    by_cases hdir : Writes flags ∧ inode.itype = .dir
    · obtain ⟨child, fs, henter, hafter, hchild, hgetChild⟩ :=
        hrep.enter hleads hget hdir.2 (baseName path)
      rw [hview.fs] at henter
      rw [open_of_enter hresolve hlookup hdir henter, if_pos hdir]
      have hentered := h.setFs hview hnext hafter
      have hsame : ((s.focus ref).attach (names ++ [baseName path]) (.file, [])).nextFd =
          s.nextFd := hafter.nextFd.symm.trans (hnext.trans h.nextFd)
      have hrep' : Represents (view.setFs () fs) ((s.put ref
          ((s.focus ref).attach (names ++ [baseName path]) (.file, []))).focus ref) := by
        rw [FileForest.focus_put]
        exact hafter
      have hget' : ((view.setFs () fs).filesystems ()).inodes.get? child.ino = some child := by
        rw [filesystems_setFs]
        exact hgetChild
      have hfs' : (vfs.setFs ref fs).fsOf path = some ref := hfs
      have hopened := hentered.addOpenFile (hview.setFs fs) hrep' hchild hget' hfs' flags
      rw [FileForest.focus_put, FileForest.grant_put hsame] at hopened
      exact ⟨congrArg FileReply.count (h.nextFd.trans hsame.symm), hopened⟩
    · rw [open_of_not_enter hresolve hlookup hdir, if_neg hdir]
      exact ⟨congrArg FileReply.count h.nextFd, h.addOpenFile hview hrep hleads hget hfs flags⟩
  · have hopen : vfs.open_ path flags = (.ok (-2), vfs) := by
      unfold VFS.open_
      rw [hresolve]
    rw [hopen, hfind]
    exact ⟨rfl, h⟩

/-! ## Descriptors -/

theorem owner_cases (h : Branches route vfs s) (fd : Int) :
    (vfs.openFiles.get? fd = none ∧ s.owner fd = none) ∨
      ∃ file ref view, vfs.openFiles.get? fd = some file ∧ s.owner fd = some ref ∧
        vfs.fsOf file.path = some ref ∧ View vfs ref view ∧ Represents view (s.focus ref) := by
  have hfd := h.owner fd
  revert hfd
  generalize vfs.openFiles.get? fd = file
  generalize s.owner fd = owner
  intro hfd
  cases hfd with
  | none => exact Or.inl ⟨rfl, rfl⟩
  | @some file ref hfs =>
      obtain ⟨view, hview, hrep⟩ := h.part ref
      exact Or.inr ⟨file, ref, view, rfl, rfl, hfs, hview, hrep⟩

theorem read (h : Branches route vfs s) (fd size : Int) :
    FileReply.data (some (vfs.read fd size).1) = (s.read fd size).1 ∧
      Branches route (vfs.read fd size).2 (s.read fd size).2 := by
  unfold FileForest.read
  rcases h.owner_cases fd with
    ⟨hfile, howner⟩ | ⟨file, ref, view, hfile, howner, hfs, hview, hrep⟩
  · have hread : vfs.read fd size = ([], vfs) := by
      unfold VFS.read
      rw [hfile]
    rw [hread, howner]
    exact ⟨rfl, h⟩
  · obtain ⟨data, hread, hlocal⟩ := hview.read hrep.rooted hfile hfs size
    obtain ⟨hreply, hafter⟩ := hrep.read fd size
    rw [hlocal] at hreply hafter
    have hafter : Represents ((view.setFs () (vfs.filesystems ref)).advance fd data.length)
        ((s.focus ref).read fd size).2 := by
      rw [← hview.fs, setFs_self]
      exact hafter
    have hadvanced := h.advance hview (h.nextFd_part hrep) howner hafter
    rw [setFs_self] at hadvanced
    rw [hread, howner]
    exact ⟨hreply, hadvanced⟩

theorem write (h : Branches route vfs s) (fd : Int) (data : Bytes) :
    FileReply.count (vfs.write fd data).1 = (s.write fd data).1 ∧
      Branches route (vfs.write fd data).2 (s.write fd data).2 := by
  unfold FileForest.write
  rcases h.owner_cases fd with
    ⟨hfile, howner⟩ | ⟨file, ref, view, hfile, howner, hfs, hview, hrep⟩
  · have hwrite : vfs.write fd data = (-9, vfs) := by
      unfold VFS.write
      rw [hfile]
    rw [hwrite, howner]
    exact ⟨rfl, h⟩
  · have hnext := h.nextFd_part hrep
    obtain ⟨n, fs, hwrite, hlocal⟩ := hview.write hrep.rooted hfile hfs data
    obtain ⟨hreply, hafter⟩ := hrep.write fd data
    rw [hlocal] at hreply hafter
    rw [hwrite, howner]
    dsimp only at hafter ⊢
    refine ⟨hreply, ?_⟩
    split at hafter
    · rename_i hpos
      rw [if_pos hpos]
      exact h.advance hview hnext howner hafter
    · rename_i hpos
      rw [if_neg hpos]
      exact h.setFs hview hnext hafter

theorem close (h : Branches route vfs s) (fd : Int) :
    (vfs.close fd).1 = (s.close fd).1 ∧ Branches route (vfs.close fd).2 (s.close fd).2 := by
  unfold FileForest.close
  rcases h.owner_cases fd with
    ⟨hfile, howner⟩ | ⟨file, ref, view, hfile, howner, hfs, hview, hrep⟩
  · have hclose : vfs.close fd = (false, vfs) := by
      unfold VFS.close
      rw [hfile]
    rw [hclose, howner]
    exact ⟨rfl, h⟩
  · obtain ⟨file', hfile', -⟩ := hview.file_eq hfile hfs
    have hclose : vfs.close fd = (true, { vfs with openFiles := vfs.openFiles.erase fd }) := by
      unfold VFS.close
      rw [hfile]
    have hlocal : view.close fd = (true, { view with openFiles := view.openFiles.erase fd }) := by
      unfold VFS.close
      rw [hfile']
    obtain ⟨hreply, hafter⟩ := hrep.close fd
    rw [hlocal] at hreply hafter
    rw [hclose, howner]
    exact ⟨hreply, h.erase hview (h.nextFd_part hrep) howner hafter⟩

end Branches

omit [DecidableEq ρ] in
theorem openFiles_mountAll (vfs : VFS ρ TmpFS) (mounts : List (MountPoint ρ)) :
    (vfs.mountAll mounts).openFiles = vfs.openFiles ∧
      (vfs.mountAll mounts).nextFd = vfs.nextFd := by
  induction mounts generalizing vfs with
  | nil => exact ⟨rfl, rfl⟩
  | cons mp mounts ih => exact ih (vfs.mount mp.mountpoint mp.fs mp.source)

theorem branches_mountAll (mounts : List (MountPoint ρ)) :
    let vfs := (init fun _ => TmpFS.init).mountAll mounts
    Branches vfs.names vfs FileForest.init := by
  intro vfs
  have hopen := openFiles_mountAll (init fun _ : ρ => TmpFS.init) mounts
  refine
    { names := rfl
      part := fun ref => ⟨rootVfs [], ⟨?_, fun fd => ?_⟩, represents_rootVfs []⟩
      owner := fun fd => ?_
      fresh := ?_
      nextFd := hopen.2 }
  · rw [filesystems_mountAll]
    rfl
  · rw [openOn, hopen.1]
    exact .none
  · rw [hopen.1]
    exact .none
  · intro fd hfd
    rw [hopen.1] at hfd
    exact absurd hfd (Dict.not_mem_empty fd)

theorem refines_fileForest (route : Str → Option (ρ × List Str)) :
    Service.Refines (Branches route) respond (FileForest.serve route) := by
  have hboth : ∀ {vfs s}, Branches route vfs s → ∀ request,
      (respond vfs request).1 = (s.serve route request).1 ∧
        Branches route (respond vfs request).2 (s.serve route request).2 := by
    intro vfs s h request
    cases request with
    | mkdir path => exact ⟨congrArg FileReply.flag (h.mkdir path).1, (h.mkdir path).2⟩
    | createFile path content =>
        exact ⟨congrArg FileReply.flag (h.createFile path content).1, (h.createFile path content).2⟩
    | writePath path data => exact h.writePath path data
    | readPath path size => exact ⟨congrArg FileReply.data (h.readPath path size), h⟩
    | stat path => exact ⟨congrArg FileReply.node (h.stat path), h⟩
    | readdir path => exact ⟨congrArg FileReply.names (h.readdir path), h⟩
    | open_ path flags => exact h.open_ path flags
    | read fd size => exact h.read fd size
    | write fd data => exact h.write fd data
    | close fd => exact ⟨congrArg FileReply.flag (h.close fd).1, (h.close fd).2⟩
  exact ⟨fun h request => (hboth h request).1, fun h request => (hboth h request).2⟩

/-- With any new filesystems at any mount points, the VFS gives exactly the replies of a
forest of file stores that its mount table is the route to. -/
theorem replies_eq_fileForest (mounts : List (MountPoint ρ)) (requests : List FileRequest) :
    let vfs := (init fun _ => TmpFS.init).mountAll mounts
    Service.replies respond vfs requests =
      Service.replies (FileForest.serve vfs.names) FileForest.init requests :=
  (refines_fileForest _).replies_eq (branches_mountAll mounts) requests

end VFS

end ComputeKernel.Vfs
