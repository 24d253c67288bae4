import ComputeKernel.Vfs.FileStore
import ComputeKernel.Vfs.Positions

/-!
# The VFS is a file store

A VFS with one tmpfs at `/` represents a file store: the walks from the root give the tree,
the children of a directory its listing, and an open file has the inode that the names of its
descriptor lead to.  Every request keeps this and gets the reply of the store.
-/

namespace ComputeKernel.Vfs

open Lib Lib.Path Lib.Tree Fs

namespace VFS

def Leads (vfs : VFS Unit TmpFS) (names : List Str) (ino : Int) : Prop :=
  Walk (vfs.filesystems ()).inodes.Entry 1 names ino

def childNames (fs : TmpFS) (ino : Int) : List Str :=
  ((fs.inodes.get? ino).map fun inode => inode.children.keys).getD []

def Stands (vfs : VFS Unit TmpFS) (file : OpenFile) (handle : List Str × Int) : Prop :=
  vfs.Leads handle.1 file.ino ∧ file.position = handle.2

structure Represents (vfs : VFS Unit TmpFS) (s : FileStore) : Prop where
  rooted : Rooted vfs
  tree : vfs.tree = s.tree
  listing : ∀ {names ino}, vfs.Leads names ino →
    childNames (vfs.filesystems ()) ino = s.listing names
  unlisted : ∀ {names}, s.tree names = none → s.listing names = []
  handles : ∀ fd, Option.Rel vfs.Stands (vfs.openFiles.get? fd) (s.handles fd)
  nextFd : vfs.nextFd = s.nextFd

/-- Only `name` is new: it comes last in `d`, and its inode lists nothing. -/
structure ListsLast (fs fs' : TmpFS) (d : Int) (name : Str) (ino : Int) : Prop where
  old : ∀ other, other ≠ ino →
    childNames fs' other = childNames fs other ++ if other = d then [name] else []
  new : childNames fs' ino = []

/-! ## What opening does -/

section Opening

variable {ρ F : Type} [Filesystem F]

def enter (fs : F) (dir : Inode) (name : Str) : Except FsError Inode × F :=
  match Filesystem.create fs dir.ino name .file with
  | (.ok inode, fs) => (.ok inode, fs)
  | (.error (.fileExistsError _), fs) =>
      (.ok ((Filesystem.lookupName fs dir.ino name).getD dir), fs)
  | (.error error, fs) => (.error error, fs)

variable [DecidableEq ρ] {vfs : VFS ρ F} {path flags : Str} {ref : ρ} {inode : Inode}

theorem open_of_enter (hresolve : vfs.resolve? path = some (ref, inode.ino))
    (hlookup : Filesystem.lookup (vfs.filesystems ref) inode.ino = some inode)
    (hdir : Writes flags ∧ inode.itype = .dir) {child : Inode} {fs : F}
    (henter : enter (vfs.filesystems ref) inode (baseName path) = (.ok child, fs)) :
    vfs.open_ path flags =
      (.ok vfs.nextFd, (vfs.setFs ref fs).addOpenFile path flags ref child) := by
  have hwrites : ('w' ∈ flags ∨ 'a' ∈ flags) ∧ inode.itype = .dir := hdir
  unfold open_
  unfold enter at henter
  rw [hresolve]
  dsimp only
  rw [hlookup]
  dsimp only
  rw [if_pos hwrites]
  revert henter
  rcases Filesystem.create (vfs.filesystems ref) inode.ino (baseName path) .file with
    ⟨error | made, fs'⟩
  · cases error with
    | fileExistsError message =>
        intro henter
        cases henter
        rfl
    | valueError message =>
        intro henter
        cases henter
  · intro henter
    cases henter
    rfl

theorem open_of_not_enter (hresolve : vfs.resolve? path = some (ref, inode.ino))
    (hlookup : Filesystem.lookup (vfs.filesystems ref) inode.ino = some inode)
    (hdir : ¬ (Writes flags ∧ inode.itype = .dir)) :
    vfs.open_ path flags = (.ok vfs.nextFd, vfs.addOpenFile path flags ref inode) := by
  unfold open_
  rw [hresolve]
  dsimp only
  rw [hlookup]
  exact if_neg hdir

end Opening

/-! ## Listings -/

theorem childNames_of_get? {fs : TmpFS} {ino : Int} {inode : Inode}
    (h : fs.inodes.get? ino = some inode) : childNames fs ino = inode.children.keys := by
  rw [childNames, h]
  rfl

theorem childNames_update (fs : TmpFS) (ino : Int) {f : Inode → Inode}
    (hf : ∀ inode, (f inode).children = inode.children) (other : Int) :
    childNames (fs.update ino f) other = childNames fs other := by
  unfold childNames TmpFS.update
  dsimp only
  rw [Dict.get?_modify_eq_map]
  cases fs.inodes.get? other with
  | none => rfl
  | some inode =>
      rw [Option.map_some, Option.map_some, Option.map_some]
      split
      · rw [hf]
      · rfl

theorem listsLast_create {fs : TmpFS} (h : TmpFS.Inv fs) {d : Int} {name : Str}
    (hok : InodeTable.createError "tmpfs".toList fs.inodes d name = none) (itype : InodeType) :
    ListsLast fs (fs.create d name itype).2 d name (fs.newInode itype 0o644).1.ino := by
  obtain ⟨parent, hparent, -, hfree⟩ := InodeTable.createError_eq_none.mp hok
  have hfresh : (fs.newInode itype 0o644).1.ino ∉ fs.inodes := h.fresh
  rw [TmpFS.create_of_none hok]
  constructor
  · intro other hne
    unfold childNames
    dsimp only
    rw [InodeTable.get?_enter hparent hfresh, if_neg hne]
    split
    · rename_i hother
      rw [hother, hparent]
      change ((parent.children.set name _).entries.map Prod.fst) = parent.children.keys ++ _
      rw [Dict.entries_set_of_not_mem (Dict.get?_eq_none.mp hfree), List.map_append]
      rfl
    · exact (List.append_nil _).symm
  · unfold childNames
    dsimp only
    rw [InodeTable.get?_enter hparent hfresh, if_pos rfl]
    rfl

theorem childNames_fill (fs : TmpFS) (ino : Int) (content : Bytes) (other : Int) :
    childNames (fill fs ino content) other = childNames fs other := by
  unfold fill
  split
  · rfl
  · have hsize : childNames (Filesystem.setSize (Filesystem.write fs ino 0 content).2 ino
        content.length) other = childNames (Filesystem.write fs ino 0 content).2 other := by
      apply childNames_update
      intro inode
      rfl
    rw [hsize]
    change childNames (TmpFS.write fs ino 0 content).2 other = _
    unfold TmpFS.write
    rcases InodeTable.write_cases (-2) fs.inodes ino 0 content with
      ⟨inode, -, -, hwrite⟩ | ⟨-, hsame, -⟩
    · rw [hwrite]
      change childNames (fs.update ino fun inode => inode.splice 0 content) other = _
      apply childNames_update
      intro inode
      rfl
    · dsimp only
      rw [hsame]

theorem mem_fill (fs : TmpFS) (ino : Int) (content : Bytes) (other : Int) :
    other ∈ (fill fs ino content).inodes ↔ other ∈ fs.inodes := by
  unfold fill
  split
  · exact Iff.rfl
  · change other ∈ ((TmpFS.write fs ino 0 content).2.inodes.modify ino _) ↔ _
    rw [Dict.mem_modify]
    unfold TmpFS.write
    rcases InodeTable.write_cases (-2) fs.inodes ino 0 content with
      ⟨inode, -, -, hwrite⟩ | ⟨-, hsame, -⟩
    · rw [hwrite]
      exact Dict.mem_modify
    · dsimp only
      rw [hsame]

theorem ListsLast.fill {fs fs' : TmpFS} {d ino : Int} {name : Str}
    (h : ListsLast fs fs' d name ino) (target : Int) (content : Bytes) :
    ListsLast fs (fill fs' target content) d name ino where
  old other hne := by rw [childNames_fill, h.old other hne]
  new := by rw [childNames_fill, h.new]

/-! ## Growing the tree -/

namespace Rooted

variable {vfs : VFS Unit TmpFS}

theorem leads_iff (h : Rooted vfs) {path : Str} {ino : Int} :
    vfs.resolve? path = some ((), ino) ↔ vfs.Leads (pathNames path) ino :=
  h.resolve?_drop path ino

theorem leads_unique (h : Rooted vfs) {names names' : List Str} {ino : Int}
    (hleads : vfs.Leads names ino) (hleads' : vfs.Leads names' ino) : names = names' :=
  h.inv.tree.walk_unique hleads hleads'

theorem leads_end (h : Rooted vfs) {names : List Str} {ino ino' : Int}
    (hleads : vfs.Leads names ino) (hleads' : vfs.Leads names ino') : ino = ino' :=
  h.inv.tree.walk_end hleads hleads'

theorem exists_inode (h : Rooted vfs) {names : List Str} {ino : Int}
    (hleads : vfs.Leads names ino) :
    ∃ inode, (vfs.filesystems ()).inodes.get? ino = some inode ∧
      vfs.tree names = some (inode.itype, inode.data) := by
  obtain ⟨inode, hget⟩ := h.nodeAt_isSome hleads
  exact ⟨inode, hget, h.tree_eq_some.mpr ⟨ino, inode, hleads, hget, rfl⟩⟩

theorem leads_cases (h : Rooted vfs) (path : Str) :
    (∃ ino inode, vfs.resolve? path = some ((), ino) ∧ vfs.Leads (pathNames path) ino ∧
      (vfs.filesystems ()).inodes.get? ino = some inode ∧
      vfs.tree (pathNames path) = some (inode.itype, inode.data)) ∨
    (vfs.resolve? path = none ∧ vfs.tree (pathNames path) = none) := by
  cases hresolve : vfs.resolve? path with
  | none =>
      refine Or.inr ⟨rfl, h.tree_eq_none.mpr fun ino hleads => ?_⟩
      rw [h.leads_iff.mpr hleads] at hresolve
      cases hresolve
  | some found =>
      obtain ⟨⟨⟩, ino⟩ := found
      have hleads := h.leads_iff.mp hresolve
      obtain ⟨inode, hget, htree⟩ := h.exists_inode hleads
      exact Or.inl ⟨ino, inode, rfl, hleads, hget, htree⟩

end Rooted

namespace Represents

variable {vfs : VFS Unit TmpFS} {s : FileStore} {ino : Int} {inode : Inode}

theorem leads_grown (h : Represents vfs s) {names : List Str} {d ino : Int} {name : Str}
    {inode : Inode} {fs : TmpFS} (hgrown : TmpFS.Grown (vfs.filesystems ()) fs d name inode) :
    (vfs.setFs () fs).Leads names ino ↔ vfs.Leads names ino ∨
      (ino = inode.ino ∧ ∃ init, names = init ++ [name] ∧ vfs.Leads init d) := by
  unfold Leads
  rw [filesystems_setFs, hgrown.entry]
  exact walk_addLeaf h.rooted.inv.tree hgrown.fresh h.rooted.inv.tree.root_node

theorem rel_of_leads {vfs' : VFS Unit TmpFS} {file : Option OpenFile}
    {handle : Option (List Str × Int)} (h : Option.Rel vfs.Stands file handle)
    (hleads : ∀ {names ino}, vfs.Leads names ino → vfs'.Leads names ino) :
    Option.Rel vfs'.Stands file handle := by
  cases h with
  | none => exact .none
  | some hstands => exact .some ⟨hleads hstands.1, hstands.2⟩

theorem grown (h : Represents vfs s) {cs : List Str} {d : Int} {name : Str} {inode : Inode}
    {fs : TmpFS} (hleads : vfs.Leads cs d)
    (hok : InodeTable.createError "tmpfs".toList (vfs.filesystems ()).inodes d name = none)
    (hgrown : TmpFS.Grown (vfs.filesystems ()) fs d name inode)
    (hkeeps : KeepsNodes (vfs.filesystems ()) fs)
    (hlists : ListsLast (vfs.filesystems ()) fs d name inode.ino) :
    Represents (vfs.setFs () fs) (s.attach (cs ++ [name]) (inode.itype, inode.data)) := by
  have hcan := h.rooted.canAttach_iff.mpr ⟨d, hleads, hok⟩
  rw [h.tree] at hcan
  have hfree : s.tree (cs ++ [name]) = none := hcan.2.1
  have hparent : s.tree cs ≠ none := by
    obtain ⟨inode', -, htree⟩ := h.rooted.exists_inode hleads
    rw [← h.tree, htree]
    exact Option.some_ne_none _
  have hself : cs ++ [name] ≠ cs := by simp
  have hattach : s.attach (cs ++ [name]) (inode.itype, inode.data) =
      { s with
        tree := Function.update s.tree (cs ++ [name]) (some (inode.itype, inode.data))
        listing := Function.update s.listing cs (s.listing cs ++ [name]) } := by
    rw [FileStore.attach, if_pos hcan, List.dropLast_concat, List.getLastD_concat]
  rw [hattach]
  refine
    { rooted := h.rooted.setFs hgrown.inv
      tree := by rw [h.rooted.tree_grown hleads hgrown hkeeps, h.tree]
      listing := ?_
      unlisted := ?_
      handles := fun fd => rel_of_leads (h.handles fd) fun hold =>
        (h.leads_grown hgrown).mpr (Or.inl hold)
      nextFd := h.nextFd }
  · intro names ino hnew
    dsimp only
    rw [filesystems_setFs]
    rcases (h.leads_grown hgrown).mp hnew with hold | ⟨rfl, init, rfl, hinit⟩
    · have hne : ino ≠ inode.ino := by
        rintro rfl
        exact hgrown.fresh (h.rooted.inv.tree.walk_node hold h.rooted.inv.tree.root_node)
      rw [hlists.old ino hne, h.listing hold]
      by_cases hcs : names = cs
      · rw [hcs] at hold ⊢
        rw [Function.update_self, if_pos (h.rooted.leads_end hold hleads)]
      · rw [Function.update_of_ne hcs, if_neg, List.append_nil]
        rintro rfl
        exact hcs (h.rooted.leads_unique hold hleads)
    · rw [h.rooted.leads_unique hinit hleads, hlists.new, Function.update_of_ne hself,
        h.unlisted hfree]
  · intro names hnone
    dsimp only at hnone ⊢
    by_cases hnames : names = cs ++ [name]
    · rw [hnames, Function.update_self] at hnone
      cases hnone
    · rw [Function.update_of_ne hnames] at hnone
      have hcs : names ≠ cs := fun hsame => hparent (hsame ▸ hnone)
      rw [Function.update_of_ne hcs, h.unlisted hnone]

theorem attach_of_fail (h : Represents vfs s) {cs : List Str} {name : Str}
    (hfail : ∀ d, vfs.Leads cs d →
      InodeTable.createError "tmpfs".toList (vfs.filesystems ()).inodes d name ≠ none) :
    ¬ NameTree.CanAttach Node.IsDir s.tree (cs ++ [name]) := by
  rw [← h.tree, h.rooted.canAttach_iff]
  rintro ⟨d, hleads, hok⟩
  exact hfail d hleads hok

/-! ## Changing the bytes of a file, and the descriptors -/

theorem tree_update (h : Represents vfs s) {names : List Str} {ino : Int} {inode : Inode}
    (hleads : vfs.Leads names ino) (hget : (vfs.filesystems ()).inodes.get? ino = some inode)
    {f : Inode → Inode} (hf : TmpFS.KeepsShape f) :
    (vfs.setFs () ((vfs.filesystems ()).update ino f)).tree =
      Function.update vfs.tree names (some ((f inode).itype, (f inode).data)) := by
  have hrooted := h.rooted.setFs (h.rooted.inv.update hf ino)
  have hleads' : ∀ names ino', (vfs.setFs () ((vfs.filesystems ()).update ino f)).Leads names ino' ↔
      vfs.Leads names ino' := by
    intro names ino'
    unfold Leads
    rw [filesystems_setFs, TmpFS.update, InodeTable.entry_modify hf.children]
  funext other
  by_cases hother : other = names
  · rw [hother, Function.update_self, hrooted.tree_eq_some]
    refine ⟨ino, f inode, (hleads' _ _).mpr hleads, ?_, rfl⟩
    rw [filesystems_setFs, TmpFS.update, Dict.get?_modify, if_pos rfl, hget, Option.map_some]
  · rw [Function.update_of_ne hother]
    apply Option.ext
    intro node
    rw [hrooted.tree_eq_some, h.rooted.tree_eq_some]
    have hsame : ∀ ino', vfs.Leads other ino' → ino' ≠ ino := by
      rintro ino' hino' rfl
      exact hother (h.rooted.leads_unique hino' hleads)
    constructor
    · rintro ⟨ino', inode', hino', hget', hnode⟩
      have hold := (hleads' _ _).mp hino'
      rw [filesystems_setFs, TmpFS.update, Dict.get?_modify_of_ne _ _ (hsame ino' hold)] at hget'
      exact ⟨ino', inode', hold, hget', hnode⟩
    · rintro ⟨ino', inode', hold, hget', hnode⟩
      refine ⟨ino', inode', (hleads' _ _).mpr hold, ?_, hnode⟩
      rw [filesystems_setFs, TmpFS.update, Dict.get?_modify_of_ne _ _ (hsame ino' hold)]
      exact hget'

theorem put (h : Represents vfs s) {names : List Str} {ino : Int} {inode : Inode}
    (hleads : vfs.Leads names ino) (hget : (vfs.filesystems ()).inodes.get? ino = some inode)
    (hregular : inode.itype = .file) (offset : Int) (data : Bytes) :
    Represents (vfs.setFs () ((vfs.filesystems ()).update ino fun inode =>
      inode.splice offset data)) (s.put names (spliceAt inode.data offset data)) := by
  have hshape := TmpFS.keepsShape_splice offset data
  have hleads' : ∀ {names ino'}, (vfs.setFs () ((vfs.filesystems ()).update ino fun inode =>
      inode.splice offset data)).Leads names ino' ↔ vfs.Leads names ino' := by
    intro names ino'
    unfold Leads
    rw [filesystems_setFs, TmpFS.update, InodeTable.entry_modify hshape.children]
  have hthere : s.tree names ≠ none := by
    obtain ⟨inode', -, htree⟩ := h.rooted.exists_inode hleads
    rw [← h.tree, htree]
    exact Option.some_ne_none _
  refine
    { rooted := h.rooted.setFs (h.rooted.inv.update hshape ino)
      tree := ?_
      listing := ?_
      unlisted := ?_
      handles := fun fd => rel_of_leads (h.handles fd) hleads'.mpr
      nextFd := h.nextFd }
  · rw [h.tree_update hleads hget hshape, h.tree]
    have hnode : ((inode.splice offset data).itype, (inode.splice offset data).data) =
        (.file, spliceAt inode.data offset data) := Prod.ext hregular rfl
    rw [hnode]
    rfl
  · intro other ino' hother
    rw [filesystems_setFs, childNames_update _ _ hshape.children]
    exact h.listing (hleads'.mp hother)
  · intro other hnone
    change Function.update s.tree names _ other = none at hnone
    change s.listing other = []
    by_cases hother : other = names
    · rw [hother, Function.update_self] at hnone
      cases hnone
    · rw [Function.update_of_ne hother] at hnone
      exact h.unlisted hnone

theorem advance (h : Represents vfs s) (fd n : Int) :
    Represents (vfs.advance fd n) (s.advance fd n) where
  rooted := h.rooted.of_same rfl rfl
  tree := h.tree
  listing := h.listing
  unlisted := h.unlisted
  nextFd := h.nextFd
  handles other := by
    rw [get?_advance]
    change Option.Rel _ _ ((s.handles other).map _)
    have hold := h.handles other
    revert hold
    generalize vfs.openFiles.get? other = file
    generalize s.handles other = handle
    intro hold
    cases hold with
    | none => exact .none
    | @some file handle hstands =>
        rw [Option.map_some, Option.map_some]
        split
        · exact .some ⟨hstands.1, congrArg (· + n) hstands.2⟩
        · exact .some hstands

theorem addOpenFile (h : Represents vfs s) {names : List Str} {inode : Inode}
    (hleads : vfs.Leads names inode.ino)
    (hget : (vfs.filesystems ()).inodes.get? inode.ino = some inode) (path flags : Str) :
    Represents (vfs.addOpenFile path flags () inode) (s.openAt names flags).2 where
  rooted := h.rooted.of_same rfl rfl
  tree := h.tree
  listing := h.listing
  unlisted := h.unlisted
  nextFd := congrArg (· + 1) h.nextFd
  handles fd := by
    have htree := h.rooted.tree_eq_some.mpr ⟨inode.ino, inode, hleads, hget, rfl⟩
    rw [h.tree] at htree
    change Option.Rel _ ((vfs.openFiles.set vfs.nextFd _).get? fd)
      (Function.update s.handles s.nextFd (some _) fd)
    rw [Dict.get?_set, h.nextFd]
    by_cases hfd : fd = s.nextFd
    · rw [hfd, if_pos rfl, Function.update_self]
      refine .some ⟨hleads, ?_⟩
      dsimp only
      rw [htree, Option.map_some, Option.getD_some, h.rooted.inv.size hget]
    · rw [if_neg hfd, Function.update_of_ne hfd]
      exact h.handles fd

theorem close (h : Represents vfs s) (fd : Int) :
    (vfs.close fd).1 = (s.close fd).1 ∧ Represents (vfs.close fd).2 (s.close fd).2 := by
  have hfd := h.handles fd
  cases hfile : vfs.openFiles.get? fd with
  | none =>
      rw [hfile] at hfd
      have hhandle : s.handles fd = none := by
        revert hfd
        cases s.handles fd with
        | none => exact fun _ => rfl
        | some handle => nofun
      have hclose : vfs.close fd = (false, vfs) := by
        unfold VFS.close
        rw [hfile]
      have hsame : (s.close fd).2 = s := by
        change { s with handles := Function.update s.handles fd none } = s
        rw [← hhandle, Function.update_eq_self]
      rw [hclose, hsame]
      exact ⟨by rw [FileStore.close, hhandle]; rfl, h⟩
  | some file =>
      rw [hfile] at hfd
      have hhandle : (s.handles fd).isSome = true := by
        revert hfd
        cases s.handles fd with
        | none => nofun
        | some handle => exact fun _ => rfl
      have hclose : vfs.close fd = (true, { vfs with openFiles := vfs.openFiles.erase fd }) := by
        unfold VFS.close
        rw [hfile]
      rw [hclose]
      refine ⟨hhandle.symm, ?_⟩
      refine
        { rooted := h.rooted.of_same rfl rfl
          tree := h.tree
          listing := h.listing
          unlisted := h.unlisted
          handles := fun other => ?_
          nextFd := h.nextFd }
      change Option.Rel _ ((vfs.openFiles.erase fd).get? other)
        (Function.update s.handles fd none other)
      rw [Dict.get?_erase]
      by_cases hother : other = fd
      · rw [if_pos hother, hother, Function.update_self]
        exact .none
      · rw [if_neg hother, Function.update_of_ne hother]
        exact h.handles other

/-! ## Creations -/

theorem directory_cases (h : Represents vfs s) (path name : Str) :
    (∃ d, vfs.resolve? path = some ((), d) ∧ vfs.Leads (pathNames path) d ∧
      InodeTable.createError "tmpfs".toList (vfs.filesystems ()).inodes d name = none) ∨
    ((vfs.resolve? path = none ∨ ∃ d error, vfs.resolve? path = some ((), d) ∧
        InodeTable.createError "tmpfs".toList (vfs.filesystems ()).inodes d name = some error) ∧
      ¬ NameTree.CanAttach Node.IsDir s.tree (pathNames path ++ [name])) := by
  rcases h.rooted.leads_cases path with ⟨d, inode, hresolve, hleads, -, -⟩ | ⟨hresolve, hnone⟩
  · cases herror : InodeTable.createError "tmpfs".toList (vfs.filesystems ()).inodes d name with
    | none => exact Or.inl ⟨d, hresolve, hleads, herror⟩
    | some error =>
        refine Or.inr ⟨Or.inr ⟨d, error, hresolve, herror⟩, h.attach_of_fail fun d' hleads' => ?_⟩
        rw [h.rooted.leads_end hleads' hleads, herror]
        exact Option.some_ne_none _
  · refine Or.inr ⟨Or.inl hresolve, h.attach_of_fail fun d hleads => ?_⟩
    exact absurd hleads (h.rooted.tree_eq_none.mp hnone d)

theorem canAttach_of_leads (h : Represents vfs s) {cs : List Str} {d : Int} {name : Str}
    (hleads : vfs.Leads cs d)
    (hok : InodeTable.createError "tmpfs".toList (vfs.filesystems ()).inodes d name = none) :
    NameTree.CanAttach Node.IsDir s.tree (cs ++ [name]) := by
  rw [← h.tree]
  exact h.rooted.canAttach_iff.mpr ⟨d, hleads, hok⟩

theorem mkdir (h : Represents vfs s) (path : Str) :
    (vfs.mkdir path).1 = (s.make (newNames path) (.dir, [])).1 ∧
      Represents (vfs.mkdir path).2 (s.make (newNames path) (.dir, [])).2 := by
  unfold VFS.mkdir newNames
  rcases h.directory_cases (parentPath path) (baseName path) with
    ⟨d, hresolve, hleads, hok⟩ | ⟨hfail, hcan⟩
  · obtain ⟨hcreate, hgrown⟩ := h.rooted.inv.grown_create hok .dir
    have hmkdir : Filesystem.mkdir (vfs.filesystems ()) d (baseName path) = _ := hcreate
    rw [hresolve]
    dsimp only
    rw [hmkdir]
    rw [FileStore.make_of_can (h.canAttach_of_leads hleads hok)]
    exact ⟨rfl, h.grown hleads hok hgrown (keepsNodes_create h.rooted.inv hok .dir)
        (listsLast_create h.rooted.inv hok .dir)⟩
  · rw [FileStore.make_of_not_can hcan]
    rcases hfail with hresolve | ⟨d, error, hresolve, herror⟩
    · rw [hresolve]
      exact ⟨rfl, h⟩
    · have hmkdir : Filesystem.mkdir (vfs.filesystems ()) d (baseName path) =
          (.error error, vfs.filesystems ()) := TmpFS.create_of_error herror _
      rw [hresolve]
      dsimp only
      rw [hmkdir]
      dsimp only
      rw [setFs_self]
      exact ⟨rfl, h⟩

theorem createFile (h : Represents vfs s) (path : Str) (content : Bytes) :
    (vfs.createFile path content).1 = (s.make (newNames path) (.file, content)).1 ∧
      Represents (vfs.createFile path content).2
        (s.make (newNames path) (.file, content)).2 := by
  unfold VFS.createFile newNames
  rcases h.directory_cases (parentPath path) (baseName path) with
    ⟨d, hresolve, hleads, hok⟩ | ⟨hfail, hcan⟩
  · obtain ⟨hcreate, hgrown⟩ := h.rooted.inv.grown_create hok .file
    obtain ⟨inode, hfilled, hfile, hdata, -⟩ := grown_fill hgrown rfl rfl content
    have hino : inode.ino = ((vfs.filesystems ()).newInode .file 0o644).1.ino := by
      have hmem := (mem_fill _ _ content _).mp (Dict.mem_of_get? hfilled.lookup)
      rw [TmpFS.create_of_none hok] at hmem
      exact ((InodeTable.mem_enter _ _).mp hmem).resolve_left hfilled.fresh
    have hlists := (listsLast_create h.rooted.inv hok .file).fill
      ((vfs.filesystems ()).newInode .file 0o644).1.ino content
    have hkeeps := keepsNodes_fill (keepsNodes_create h.rooted.inv hok .file) hgrown.fresh content
    have hrepresents := h.grown hleads hok hfilled hkeeps (hino ▸ hlists)
    rw [hfile, hdata] at hrepresents
    have hcreate : Filesystem.create (vfs.filesystems ()) d (baseName path) .file = _ := hcreate
    rw [hresolve]
    dsimp only
    rw [hcreate, FileStore.make_of_can (h.canAttach_of_leads hleads hok)]
    exact ⟨rfl, hrepresents⟩
  · rw [FileStore.make_of_not_can hcan]
    rcases hfail with hresolve | ⟨d, error, hresolve, herror⟩
    · rw [hresolve]
      exact ⟨rfl, h⟩
    · have hcreate : Filesystem.create (vfs.filesystems ()) d (baseName path) .file =
          (.error error, vfs.filesystems ()) := TmpFS.create_of_error herror _
      rw [hresolve]
      dsimp only
      rw [hcreate]
      dsimp only
      rw [setFs_self]
      exact ⟨rfl, h⟩

/-! ## Paths and descriptors -/

theorem write_of_file (hget : (vfs.filesystems ()).inodes.get? ino = some inode)
    (hregular : inode.itype = .file) (offset : Int) (data : Bytes) :
    Filesystem.write (vfs.filesystems ()) ino offset data = ((data.length : Int),
      (vfs.filesystems ()).update ino fun inode => inode.splice offset data) := by
  change TmpFS.write _ _ _ _ = _
  rw [TmpFS.write, InodeTable.write_of_file hget hregular]
  rfl

theorem write_of_other (hget : (vfs.filesystems ()).inodes.get? ino = some inode)
    (hother : inode.itype ≠ .file) (offset : Int) (data : Bytes) :
    Filesystem.write (vfs.filesystems ()) ino offset data = (-22, vfs.filesystems ()) := by
  change TmpFS.write _ _ _ _ = _
  rw [TmpFS.write, InodeTable.write, hget]
  dsimp only
  rw [if_pos hother]

theorem writePath (h : Represents vfs s) (path : Str) (data : Bytes) :
    FileReply.count (vfs.writePath path data).1 = (s.writePath path data).1 ∧
      Represents (vfs.writePath path data).2 (s.writePath path data).2 := by
  unfold VFS.writePath FileStore.writePath
  rw [← h.tree]
  rcases h.rooted.leads_cases path with
    ⟨ino, inode, hresolve, hleads, hget, htree⟩ | ⟨hresolve, hnone⟩
  · rw [hresolve, htree]
    dsimp only
    by_cases hregular : inode.itype = .file
    · rw [write_of_file hget hregular, hregular]
      exact ⟨rfl, h.put hleads hget hregular 0 data⟩
    · rw [write_of_other hget hregular, setFs_self]
      dsimp only
      split
      · rename_i hnode
        cases hnode
      · rename_i hnode
        exact absurd (congrArg Prod.fst (Option.some.inj hnode)) hregular
      · exact ⟨rfl, h⟩
  · rw [hresolve, hnone]
    obtain ⟨hcreated, hafter⟩ := h.createFile path data
    dsimp only
    rw [hcreated]
    exact ⟨rfl, hafter⟩

theorem readPath (h : Represents vfs s) (path : Str) (size : Int) :
    vfs.readPath path size = s.readPath path size := by
  unfold VFS.readPath FileStore.readPath
  rw [← h.tree]
  rcases h.rooted.leads_cases path with
    ⟨ino, inode, hresolve, hleads, hget, htree⟩ | ⟨hresolve, hnone⟩
  · have hlookup : Filesystem.lookup (vfs.filesystems ()) ino = some inode := hget
    have hread : Filesystem.read (vfs.filesystems ()) ino 0 size =
        if inode.itype ≠ .file then [] else slice inode.data 0 (0 + size) := by
      change InodeTable.read _ _ _ _ = _
      rw [InodeTable.read, hget]
    rw [hresolve, htree]
    dsimp only
    rw [hlookup, hread]
    dsimp only
    by_cases hregular : inode.itype = .file
    · rw [if_neg (not_not.mpr hregular), if_neg (not_not.mpr hregular), hregular]
    · rw [if_pos hregular]
      split
      · rename_i hnode
        exact absurd (congrArg Prod.fst (Option.some.inj hnode)) hregular
      · rfl
  · rw [hresolve, hnone]

theorem stat (h : Represents vfs s) (path : Str) :
    ((vfs.stat path).map fun inode => (inode.itype, inode.size, inode.data)) =
      (s.tree (pathNames path)).map fun node => (node.1, (node.2.length : Int), node.2) := by
  rw [← h.tree]
  rcases h.rooted.leads_cases path with
    ⟨ino, inode, hresolve, hleads, hget, htree⟩ | ⟨hresolve, hnone⟩
  · have hlookup : Filesystem.lookup (vfs.filesystems ()) ino = some inode := hget
    unfold VFS.stat
    rw [hresolve, htree]
    dsimp only
    rw [hlookup, Option.map_some, Option.map_some, h.rooted.inv.size hget]
  · unfold VFS.stat
    rw [hresolve, hnone]
    rfl

theorem readdir (h : Represents vfs s) (path : Str) :
    (vfs.readdir path).map Prod.fst = s.readdir path := by
  unfold VFS.readdir FileStore.readdir
  rw [← h.tree]
  rcases h.rooted.leads_cases path with
    ⟨ino, inode, hresolve, hleads, hget, htree⟩ | ⟨hresolve, hnone⟩
  · rw [hresolve, htree]
    change (InodeTable.readdir (vfs.filesystems ()).inodes ino).map Prod.fst = _
    rw [InodeTable.readdir, hget]
    dsimp only
    by_cases hdir : inode.itype = .dir
    · rw [if_neg (not_not.mpr hdir), hdir, ← h.listing hleads, childNames_of_get? hget]
      rfl
    · rw [if_pos hdir]
      split
      · rename_i hnode
        exact absurd (congrArg Prod.fst (Option.some.inj hnode)) hdir
      · rfl
  · rw [hresolve, hnone]
    rfl

theorem handle_cases (h : Represents vfs s) (fd : Int) :
    (vfs.openFiles.get? fd = none ∧ s.handles fd = none) ∨
    ∃ file names inode, vfs.openFiles.get? fd = some file ∧
      s.handles fd = some (names, file.position) ∧ vfs.Leads names file.ino ∧
      (vfs.filesystems ()).inodes.get? file.ino = some inode ∧
      s.tree names = some (inode.itype, inode.data) := by
  have hfd := h.handles fd
  revert hfd
  generalize vfs.openFiles.get? fd = file
  generalize s.handles fd = handle
  intro hfd
  cases hfd with
  | none => exact Or.inl ⟨rfl, rfl⟩
  | @some file handle hstands =>
      obtain ⟨names, position⟩ := handle
      obtain ⟨hleads, hposition⟩ := hstands
      obtain ⟨inode, hget, htree⟩ := h.rooted.exists_inode hleads
      rw [h.tree] at htree
      dsimp only at hposition
      exact Or.inr ⟨file, names, inode, rfl, by rw [hposition], hleads, hget, htree⟩

theorem read (h : Represents vfs s) (fd size : Int) :
    FileReply.data (some (vfs.read fd size).1) = (s.read fd size).1 ∧
      Represents (vfs.read fd size).2 (s.read fd size).2 := by
  unfold FileStore.read
  rcases h.handle_cases fd with
    ⟨hfile, hhandle⟩ | ⟨file, names, inode, hfile, hhandle, -, hget, htree⟩
  · have hread : vfs.read fd size = ([], vfs) := by
      unfold VFS.read
      rw [hfile]
    rw [hread, hhandle]
    exact ⟨rfl, h⟩
  · have hbytes : (vfs.filesystems ()).read file.ino file.position size =
        if inode.itype ≠ .file then []
        else slice inode.data file.position (file.position + size) := by
      rw [TmpFS.read, InodeTable.read, hget]
    rw [h.rooted.read_eq hfile, hhandle, hbytes]
    dsimp only
    rw [htree]
    by_cases hregular : inode.itype = .file
    · rw [if_neg (not_not.mpr hregular), hregular]
      exact ⟨rfl, h.advance fd _⟩
    · rw [if_pos hregular, List.length_nil, Int.natCast_zero, advance_zero]
      split
      · rename_i hnode
        exact absurd (congrArg Prod.fst (Option.some.inj hnode)) hregular
      · exact ⟨rfl, h⟩

theorem write (h : Represents vfs s) (fd : Int) (data : Bytes) :
    FileReply.count (vfs.write fd data).1 = (s.write fd data).1 ∧
      Represents (vfs.write fd data).2 (s.write fd data).2 := by
  unfold FileStore.write
  rcases h.handle_cases fd with
    ⟨hfile, hhandle⟩ | ⟨file, names, inode, hfile, hhandle, hleads, hget, htree⟩
  · have hwrite : vfs.write fd data = (-9, vfs) := by
      unfold VFS.write
      rw [hfile]
    rw [hwrite, hhandle]
    exact ⟨rfl, h⟩
  · rw [hhandle]
    dsimp only
    rw [htree]
    by_cases hregular : inode.itype = .file
    · rw [h.rooted.write_eq hfile hget hregular, hregular]
      exact ⟨rfl, (h.put hleads hget hregular _ data).advance fd _⟩
    · have hwrite : vfs.write fd data = (-22, vfs) := by
        unfold VFS.write
        rw [hfile]
        dsimp only
        rw [h.rooted.resolvePath_drop]
        dsimp only
        rw [write_of_other hget hregular, setFs_self]
        rfl
      rw [hwrite]
      split
      · rename_i hnode
        exact absurd (congrArg Prod.fst (Option.some.inj hnode)) hregular
      · exact ⟨rfl, h⟩

theorem enter (h : Represents vfs s) {names : List Str} {dir : Inode}
    (hleads : vfs.Leads names dir.ino)
    (hget : (vfs.filesystems ()).inodes.get? dir.ino = some dir) (hdir : dir.itype = .dir)
    (name : Str) :
    ∃ child fs, VFS.enter (vfs.filesystems ()) dir name = (.ok child, fs) ∧
      Represents (vfs.setFs () fs) (s.attach (names ++ [name]) (.file, [])) ∧
      (vfs.setFs () fs).Leads (names ++ [name]) child.ino ∧
      fs.inodes.get? child.ino = some child := by
  unfold VFS.enter
  cases herror : InodeTable.createError "tmpfs".toList (vfs.filesystems ()).inodes dir.ino
      name with
  | none =>
      obtain ⟨hcreate, hgrown⟩ := h.rooted.inv.grown_create herror .file
      have hcreate : Filesystem.create (vfs.filesystems ()) dir.ino name .file = _ := hcreate
      rw [hcreate]
      refine ⟨_, _, rfl, ?_, ?_, hgrown.lookup⟩
      · exact h.grown hleads herror hgrown (keepsNodes_create h.rooted.inv herror .file)
          (listsLast_create h.rooted.inv herror .file)
      · exact (h.leads_grown hgrown).mpr (Or.inr ⟨rfl, names, rfl, hleads⟩)
  | some error =>
      have hcreate : Filesystem.create (vfs.filesystems ()) dir.ino name .file =
          (.error error, vfs.filesystems ()) := TmpFS.create_of_error herror _
      rw [hcreate]
      simp only [InodeTable.createError, hget, hdir, ne_eq, not_true, if_false] at herror
      split at herror
      · rename_i hname
        cases herror
        obtain ⟨ino, hino⟩ := Dict.mem_iff_exists.mp hname
        have hentry : (vfs.filesystems ()).inodes.Entry dir.ino name ino := ⟨dir, hget, hino⟩
        obtain ⟨child, hchild⟩ := Dict.mem_iff_exists.mp (h.rooted.inv.tree.target hentry)
        obtain rfl := (h.rooted.inv.keyed hchild).1
        have hchildName : Filesystem.lookupName (vfs.filesystems ()) dir.ino name = some child :=
          h.rooted.inv.lookupName_eq_some.mpr ⟨hentry, hchild⟩
        have hthere : vfs.Leads (names ++ [name]) child.ino := hleads.snoc hentry
        have hcan : ¬ NameTree.CanAttach Node.IsDir s.tree (names ++ [name]) := by
          rw [← h.tree]
          rintro ⟨-, hfree, -⟩
          exact h.rooted.tree_eq_none.mp hfree child.ino hthere
        have hsame : s.attach (names ++ [name]) (.file, []) = s := if_neg hcan
        refine ⟨child, vfs.filesystems (), ?_, ?_, ?_, hchild⟩
        · dsimp only
          rw [hchildName, Option.getD_some]
        · rw [setFs_self, hsame]
          exact h
        · rw [setFs_self]
          exact hthere
      · cases herror

theorem open_ (h : Represents vfs s) (path flags : Str) :
    (openReply (vfs.open_ path flags)).1 = (s.open_ path flags).1 ∧
      Represents (openReply (vfs.open_ path flags)).2 (s.open_ path flags).2 := by
  unfold FileStore.open_
  rw [← h.tree]
  rcases h.rooted.leads_cases path with
    ⟨ino, inode, hresolve, hleads, hget, htree⟩ | ⟨hresolve, hnone⟩
  · obtain rfl := (h.rooted.inv.keyed hget).1
    rw [htree]
    dsimp only
    by_cases hdir : Writes flags ∧ inode.itype = .dir
    · obtain ⟨child, fs, henter, hafter, hchild, hgetChild⟩ :=
        h.enter hleads hget hdir.2 (baseName path)
      rw [open_of_enter hresolve hget hdir henter, if_pos hdir]
      refine ⟨congrArg FileReply.count hafter.nextFd, hafter.addOpenFile hchild ?_ path flags⟩
      rw [filesystems_setFs]
      exact hgetChild
    · rw [open_of_not_enter hresolve hget hdir, if_neg hdir]
      exact ⟨congrArg FileReply.count h.nextFd, h.addOpenFile hleads hget path flags⟩
  · have hopen : vfs.open_ path flags = (.ok (-2), vfs) := by
      unfold VFS.open_
      rw [hresolve]
    rw [hopen, hnone]
    exact ⟨rfl, h⟩

end Represents

theorem leads_rootVfs {source : Str} {names : List Str} {ino : Int} :
    (rootVfs source).Leads names ino ↔ names = [] ∧ ino = 1 := by
  constructor
  · intro hleads
    cases names with
    | nil => exact ⟨rfl, (walk_nil_iff.mp hleads).symm⟩
    | cons name names =>
        obtain ⟨c, ⟨inode, hget, hentry⟩, -⟩ := walk_cons_iff.mp hleads
        rw [(TmpFS.rootOnly_init.only hget).2.2] at hentry
        cases hentry
  · rintro ⟨rfl, rfl⟩
    exact .nil 1

theorem represents_rootVfs (source : Str) : Represents (rootVfs source) FileStore.init where
  rooted := rooted_rootVfs source
  tree := by
    funext names
    apply Option.ext
    intro node
    rw [(rooted_rootVfs source).tree_eq_some]
    change _ ↔ (if names = [] then some (InodeType.dir, []) else none) = some node
    constructor
    · rintro ⟨ino, inode, hleads, hget, rfl⟩
      obtain ⟨rfl, rfl⟩ := leads_rootVfs.mp hleads
      have hroot : inode = { ino := 1, itype := .dir, mode := 0o755 } :=
        Option.some.inj (hget.symm.trans (TmpFS.get?_init 1))
      rw [if_pos rfl, hroot]
    · intro hnode
      split at hnode
      · rename_i hnames
        cases hnode
        exact ⟨1, _, leads_rootVfs.mpr ⟨hnames, rfl⟩, TmpFS.get?_init 1, rfl⟩
      · cases hnode
  listing := by
    intro names ino hleads
    obtain ⟨rfl, rfl⟩ := leads_rootVfs.mp hleads
    exact childNames_of_get? (TmpFS.get?_init 1)
  unlisted _ := rfl
  handles _ := .none
  nextFd := rfl

theorem refines_fileStore : Service.Refines Represents respond FileStore.serve := by
  have hboth : ∀ {vfs s}, Represents vfs s → ∀ request,
      (respond vfs request).1 = (s.serve request).1 ∧
        Represents (respond vfs request).2 (s.serve request).2 := by
    intro vfs s h request
    cases request with
    | mkdir path => exact ⟨congrArg FileReply.flag (h.mkdir path).1, (h.mkdir path).2⟩
    | createFile path content =>
        exact ⟨congrArg FileReply.flag (h.createFile path content).1, (h.createFile path content).2⟩
    | writePath path data => exact h.writePath path data
    | readPath path size => exact ⟨congrArg FileReply.data (h.readPath path size), h⟩
    | stat path => exact ⟨congrArg FileReply.node (h.stat path), h⟩
    | readdir path => exact ⟨congrArg FileReply.names (h.readdir path), h⟩
    | open_ path flags => exact h.open_ path flags
    | read fd size => exact h.read fd size
    | write fd data => exact h.write fd data
    | close fd => exact ⟨congrArg FileReply.flag (h.close fd).1, (h.close fd).2⟩
  exact ⟨fun h request => (hboth h request).1, fun h request => (hboth h request).2⟩

/-- From a new tmpfs on, the VFS gives exactly the replies of the file store, whatever the
paths, flags, descriptors, sizes and data. -/
theorem replies_eq_fileStore (source : Str) (requests : List FileRequest) :
    Service.replies respond (rootVfs source) requests =
      Service.replies FileStore.serve FileStore.init requests :=
  refines_fileStore.replies_eq (represents_rootVfs source) requests

/-! ## Listings -/

theorem pathNames_concat (path : Str) {name : Str} (hname : IsComponent '/' name) :
    pathNames (path ++ '/' :: name) = pathNames path ++ [name] := by
  unfold pathNames
  cases path with
  | nil =>
      rw [List.nil_append, List.drop_succ_cons, List.drop_zero, components_of_isComponent hname]
      rfl
  | cons c path =>
      rw [List.cons_append, List.drop_succ_cons, List.drop_zero, List.drop_succ_cons,
        List.drop_zero, components_append_sep, components_of_isComponent hname]

/-- After any requests a directory lists itself twice and then names without repeats.  These
are components, and with its inode number just those under which something is found; only the
root may also list the empty name, and what it stands for is found under no path.  Nothing else
than directories lists anything. -/
theorem readdir_iff_stat (source : Str) (requests : List FileRequest) (path : Str) :
    let vfs := Service.after respond (rootVfs source) requests
    (∀ dir, vfs.stat path = some dir → dir.itype = .dir → ∃ entries,
      vfs.readdir path = (".".toList, dir.ino) :: ("..".toList, dir.ino) :: entries ∧
      (entries.map Prod.fst).Nodup ∧
      (∀ name ino, (name, ino) ∈ entries →
        IsComponent '/' name ∨ (name = [] ∧ vfs.stat "/".toList = some dir)) ∧
      (∀ name ino, IsComponent '/' name → ((name, ino) ∈ entries ↔
        (vfs.stat (path ++ '/' :: name)).map Inode.ino = some ino)) ∧
      ∀ ino, ([], ino) ∈ entries →
        ∀ other, (vfs.stat other).map Inode.ino ≠ some ino) ∧
    ((∀ dir, vfs.stat path = some dir → dir.itype ≠ .dir) → vfs.readdir path = []) := by
  intro vfs
  have hrepresents : Represents vfs (Service.after FileStore.serve FileStore.init requests) :=
    refines_fileStore.after (represents_rootVfs source) requests
  have h : Rooted vfs := hrepresents.rooted
  have hreaddir : ∀ ino, vfs.resolve? path = some ((), ino) →
      vfs.readdir path = InodeTable.readdir (vfs.filesystems ()).inodes ino := by
    intro ino hresolve
    unfold VFS.readdir
    rw [hresolve]
    rfl
  constructor
  · intro dir hstat hdir
    obtain ⟨hleads, hget⟩ := h.stat_drop.mp hstat
    have hget : (vfs.filesystems ()).inodes.get? dir.ino = some dir := hget
    have hleads : vfs.Leads (pathNames path) dir.ino := hleads
    rw [hreaddir dir.ino (h.leads_iff.mpr hleads), InodeTable.readdir, hget]
    dsimp only
    rw [if_neg (not_not.mpr hdir)]
    have hentry : ∀ name ino, (name, ino) ∈ dir.children.entries ↔
        (vfs.filesystems ()).inodes.Entry dir.ino name ino := by
      intro name ino
      rw [Dict.mem_entries]
      constructor
      · intro hchild
        exact ⟨dir, hget, hchild⟩
      · rintro ⟨dir', hget', hchild⟩
        rwa [Option.some.inj (hget.symm.trans hget')]
    refine ⟨dir.children.entries, rfl, dir.children.keys_nodup, ?_, ?_, ?_⟩
    · intro name ino hmem
      have hlisted : name ∈ childNames (vfs.filesystems ()) dir.ino := by
        rw [childNames_of_get? hget]
        exact List.mem_map_of_mem hmem
      rw [hrepresents.listing hleads] at hlisted
      rcases FileStore.named_after requests _ name hlisted with hname | ⟨hname, hroot⟩
      · exact Or.inl hname
      · rw [hroot] at hleads
        exact Or.inr ⟨hname, h.stat_drop.mpr ⟨hleads, hget⟩⟩
    · intro name ino hname
      rw [hentry, Option.map_eq_some_iff]
      constructor
      · intro hchild
        obtain ⟨child, hget'⟩ := Dict.mem_iff_exists.mp (h.inv.tree.target hchild)
        obtain rfl := (h.inv.keyed hget').1
        refine ⟨child, h.stat_drop.mpr ⟨?_, hget'⟩, rfl⟩
        change vfs.Leads (pathNames _) _
        rw [pathNames_concat path hname]
        exact hleads.snoc hchild
      · rintro ⟨child, hchild, rfl⟩
        have hthere : vfs.Leads (pathNames (path ++ '/' :: name)) child.ino :=
          (h.stat_drop.mp hchild).1
        rw [pathNames_concat path hname] at hthere
        obtain ⟨d, hd, hchild⟩ := walk_snoc_iff.mp hthere
        rwa [h.leads_end hleads hd]
    · intro ino hmem other hfound
      obtain ⟨child, hchild, rfl⟩ := Option.map_eq_some_iff.mp hfound
      have hthere : vfs.Leads (pathNames other) child.ino := (h.stat_drop.mp hchild).1
      have hempty : [] ∈ pathNames other := by
        rw [h.leads_unique hthere (hleads.snoc ((hentry _ _).mp hmem))]
        exact List.mem_append_right _ (List.mem_singleton.mpr rfl)
      exact (isComponent_of_mem_pathNames hempty).1 rfl
  · intro hother
    rcases h.leads_cases path with ⟨ino, inode, hresolve, hleads, hget, -⟩ | ⟨hresolve, -⟩
    · obtain rfl := (h.inv.keyed hget).1
      have hdir := hother inode (h.stat_drop.mpr ⟨hleads, hget⟩)
      rw [hreaddir inode.ino hresolve, InodeTable.readdir, hget]
      exact if_pos hdir
    · unfold VFS.readdir
      rw [hresolve]

end VFS

end ComputeKernel.Vfs
