import ComputeKernel.Fs.Ext2Table
import ComputeKernel.Fs.Renumbering
import ComputeKernel.Vfs.Refinement

/-!
# An ext2 root filesystem

A VFS answers requests in the same way whichever driver keeps the files, as long as the two
filesystems are twins.  So with an ext2 volume at `/` it is a file store too, which begins
when the first directory is made: that directory becomes the root.
-/

namespace ComputeKernel.Vfs

open Lib Fs

structure OpenFile.Twin (file twin : OpenFile) : Prop where
  path : twin.path = file.path
  flags : twin.flags = file.flags
  position : twin.position = file.position
  ino : twin.ino = file.ino + 1

namespace VFS

structure Twins (vfs : VFS Unit TmpFS) (twin : VFS Unit Ext2FS) : Prop where
  mounts : twin.mounts = vfs.mounts
  fs : Ext2FS.Twins (vfs.filesystems ()) (twin.filesystems ())
  openFiles : ∀ fd, Option.Rel OpenFile.Twin (vfs.openFiles.get? fd) (twin.openFiles.get? fd)
  nextFd : twin.nextFd = vfs.nextFd

namespace Twins

variable {vfs : VFS Unit TmpFS} {twin : VFS Unit Ext2FS}

/-! ## Resolution -/

theorem walk {fs : TmpFS} {ext2 : Ext2FS} (h : Ext2FS.Twins fs ext2) (ino : Int)
    (names : List Str) :
    VFS.walk ext2 (ino + 1) names = (VFS.walk fs ino names).map (· + 1) := by
  induction names generalizing ino with
  | nil => rfl
  | cons name names ih =>
      have hname : Option.Rel (Inode.Twin 1) (Filesystem.lookupName fs ino name)
          (Filesystem.lookupName ext2 (ino + 1) name) := h.inodes.lookupName ino name
      rw [VFS.walk, VFS.walk]
      revert hname
      generalize Filesystem.lookupName fs ino name = child
      generalize Filesystem.lookupName ext2 (ino + 1) name = child'
      intro hname
      cases hname with
      | none => rfl
      | some htwin =>
          dsimp only
          rw [htwin.ino]
          exact ih _

theorem resolvePath_drop (h : Twins vfs twin) (hrooted : Rooted vfs) (path : Str) :
    twin.resolvePath path =
      (some (), ((VFS.walk (vfs.filesystems ()) 1
        (Path.components '/' (path.drop 1))).map (· + 1)).getD (-2)) := by
  obtain ⟨source, hmounts⟩ := hrooted.mounts
  have hbest : twin.bestMount path = some ⟨['/'], (), source⟩ := by
    rw [bestMount, h.mounts, hmounts, findMount]
    split
    · rfl
    · rw [if_pos ⟨rfl, rfl⟩, findMount]
  rw [resolvePath_of_bestMount hbest]
  exact congrArg (fun found => (some (), Option.getD found (-2))) (walk h.fs 1 _)

theorem resolvePath_fst (h : Twins vfs twin) (hrooted : Rooted vfs) (path : Str) :
    (twin.resolvePath path).1 = some () := by
  rw [h.resolvePath_drop hrooted]

theorem resolve_cases (h : Twins vfs twin) (hrooted : Rooted vfs) (path : Str) :
    (vfs.resolve? path = none ∧ twin.resolve? path = none) ∨
      ∃ ino inode inode', vfs.resolve? path = some ((), ino) ∧
        twin.resolve? path = some ((), ino + 1) ∧
        (vfs.filesystems ()).inodes.get? ino = some inode ∧
        (twin.filesystems ()).inodes.get? (ino + 1) = some inode' ∧
        Inode.Twin 1 inode inode' := by
  have htwin : twin.resolve? path = (vfs.resolve? path).map fun found => ((), found.2 + 1) := by
    unfold resolve?
    rw [h.resolvePath_drop hrooted, hrooted.resolvePath_drop]
    cases hwalk : VFS.walk (vfs.filesystems ()) 1 (Path.components '/' (path.drop 1)) with
    | none => rfl
    | some ino =>
        have hnode := hrooted.inv.tree.walk_node ((walk_eq_some_iff hrooted.inv).mp hwalk)
          hrooted.inv.tree.root_node
        have hpos := (hrooted.inv.lt_nextIno hnode).1
        have hnot : ¬ ino < 0 := by omega
        have hnot' : ¬ ino + 1 < 0 := by omega
        simp [hnot, hnot']
  rw [htwin]
  rcases hrooted.leads_cases path with ⟨ino, inode, hresolve, -, hget, -⟩ | ⟨hresolve, -⟩
  · right
    rcases h.fs.inodes.cases ino with ⟨hnone, -⟩ | ⟨inode', twin', hget', hget'', hinode⟩
    · rw [hget] at hnone
      cases hnone
    · rw [hresolve]
      exact ⟨ino, inode', twin', rfl, rfl, hget', hget'', hinode⟩
  · left
    rw [hresolve]
    exact ⟨rfl, rfl⟩

/-! ## What changes the VFS -/

theorem setFs (h : Twins vfs twin) {fs : TmpFS} {ext2 : Ext2FS} (hfs : Ext2FS.Twins fs ext2) :
    Twins (vfs.setFs () fs) (twin.setFs () ext2) where
  mounts := h.mounts
  fs := by
    rw [filesystems_setFs, filesystems_setFs]
    exact hfs
  openFiles := h.openFiles
  nextFd := h.nextFd

theorem advance (h : Twins vfs twin) (fd n : Int) :
    Twins (vfs.advance fd n) (twin.advance fd n) where
  mounts := h.mounts
  fs := h.fs
  openFiles := by
    intro other
    have hother := h.openFiles other
    unfold VFS.advance
    rw [Dict.get?_modify_eq_map, Dict.get?_modify_eq_map]
    revert hother
    generalize vfs.openFiles.get? other = file
    generalize twin.openFiles.get? other = file'
    intro hother
    cases hother with
    | none => exact Option.Rel.none
    | some hfile =>
        refine Option.Rel.some ?_
        dsimp only
        split
        · exact ⟨hfile.path, hfile.flags, congrArg (· + n) hfile.position, hfile.ino⟩
        · exact hfile
  nextFd := h.nextFd

theorem addOpenFile (h : Twins vfs twin) (path flags : Str) {inode inode' : Inode}
    (hinode : Inode.Twin 1 inode inode') :
    Twins (vfs.addOpenFile path flags () inode) (twin.addOpenFile path flags () inode') where
  mounts := h.mounts
  fs := h.fs
  openFiles := by
    intro fd
    unfold VFS.addOpenFile
    dsimp only
    rw [Dict.get?_set, Dict.get?_set, h.nextFd]
    split
    · refine Option.Rel.some ⟨rfl, rfl, ?_, hinode.ino⟩
      dsimp only
      rw [hinode.size]
    · exact h.openFiles fd
  nextFd := congrArg (· + 1) h.nextFd

theorem close (h : Twins vfs twin) (fd : Int) :
    (twin.close fd).1 = (vfs.close fd).1 ∧ Twins (vfs.close fd).2 (twin.close fd).2 := by
  have hfd := h.openFiles fd
  unfold VFS.close
  revert hfd
  generalize vfs.openFiles.get? fd = file
  generalize twin.openFiles.get? fd = file'
  intro hfd
  cases hfd with
  | none => exact ⟨rfl, h⟩
  | some hfile =>
      refine ⟨rfl, h.mounts, h.fs, fun other => ?_, h.nextFd⟩
      dsimp only
      rw [Dict.get?_erase, Dict.get?_erase]
      split
      · exact Option.Rel.none
      · exact h.openFiles other

/-! ## Requests -/

section Requests

variable (h : Twins vfs twin) (hrooted : Rooted vfs)

include h hrooted

theorem mkdir (path : Str) :
    (twin.mkdir path).1 = (vfs.mkdir path).1 ∧ Twins (vfs.mkdir path).2 (twin.mkdir path).2 := by
  unfold VFS.mkdir
  rcases h.resolve_cases hrooted (parentPath path) with
    ⟨hnone, hnone'⟩ | ⟨ino, inode, inode', hino, hino', -⟩
  · rw [hnone, hnone']
    exact ⟨rfl, h⟩
  · rw [hino, hino']
    rcases h.fs.create ino (baseName path) .dir with
      ⟨child, child', fs, fs', hok, hok', -, -, hfs⟩ | ⟨error, error', herror, herror', -⟩
    · have hok : Filesystem.mkdir (vfs.filesystems ()) ino (baseName path) = _ := hok
      have hok' : Filesystem.mkdir (twin.filesystems ()) (ino + 1) (baseName path) = _ := hok'
      simp only [hok, hok']
      exact ⟨trivial, h.setFs hfs⟩
    · have herror : Filesystem.mkdir (vfs.filesystems ()) ino (baseName path) = _ := herror
      have herror' : Filesystem.mkdir (twin.filesystems ()) (ino + 1) (baseName path) = _ :=
        herror'
      simp only [herror, herror', setFs_self]
      exact ⟨trivial, h⟩

omit h hrooted in
theorem fill {fs : TmpFS} {ext2 : Ext2FS} (hfs : Ext2FS.Twins fs ext2) {ino : Int}
    (hmem : ino ∈ fs.inodes) (content : Bytes) :
    Ext2FS.Twins (VFS.fill fs ino content) (VFS.fill ext2 (ino + 1) content) := by
  unfold VFS.fill
  split
  · exact hfs
  · exact (hfs.write hmem 0 content).2.setSize ino content.length

theorem createFile (path : Str) (content : Bytes) :
    (twin.createFile path content).1 = (vfs.createFile path content).1 ∧
      Twins (vfs.createFile path content).2 (twin.createFile path content).2 := by
  unfold VFS.createFile
  rcases h.resolve_cases hrooted (parentPath path) with
    ⟨hnone, hnone'⟩ | ⟨ino, inode, inode', hino, hino', -⟩
  · rw [hnone, hnone']
    exact ⟨rfl, h⟩
  · rw [hino, hino']
    rcases h.fs.create ino (baseName path) .file with
      ⟨child, child', fs, fs', hok, hok', hchild, hmem, hfs⟩ | ⟨error, error', herror, herror', -⟩
    · have hok : Filesystem.create (vfs.filesystems ()) ino (baseName path) .file = _ := hok
      have hok' : Filesystem.create (twin.filesystems ()) (ino + 1) (baseName path) .file = _ :=
        hok'
      simp only [hok, hok', hchild.ino]
      exact ⟨trivial, h.setFs (fill hfs hmem content)⟩
    · have herror : Filesystem.create (vfs.filesystems ()) ino (baseName path) .file = _ :=
        herror
      have herror' : Filesystem.create (twin.filesystems ()) (ino + 1) (baseName path) .file =
        _ := herror'
      simp only [herror, herror', setFs_self]
      exact ⟨trivial, h⟩

theorem writePath (path : Str) (data : Bytes) :
    (twin.writePath path data).1 = (vfs.writePath path data).1 ∧
      Twins (vfs.writePath path data).2 (twin.writePath path data).2 := by
  unfold VFS.writePath
  rcases h.resolve_cases hrooted path with
    ⟨hnone, hnone'⟩ | ⟨ino, inode, inode', hino, hino', hget, -⟩
  · rw [hnone, hnone']
    obtain ⟨hcreated, hcreate⟩ := h.createFile hrooted path data
    dsimp only
    rw [hcreated]
    exact ⟨rfl, hcreate⟩
  · rw [hino, hino']
    obtain ⟨hcount, hfs⟩ := h.fs.write (Dict.mem_of_get? hget) 0 data
    exact ⟨hcount, h.setFs hfs⟩

theorem readPath (path : Str) (size : Int) : twin.readPath path size = vfs.readPath path size := by
  unfold VFS.readPath
  rcases h.resolve_cases hrooted path with
    ⟨hnone, hnone'⟩ | ⟨ino, inode, inode', hino, hino', hget, hget', hinode⟩
  · rw [hnone, hnone']
  · rw [hino, hino']
    have hget : Filesystem.lookup (vfs.filesystems ()) ino = _ := hget
    have hget' : Filesystem.lookup (twin.filesystems ()) (ino + 1) = _ := hget'
    dsimp only
    rw [hget, hget']
    dsimp only
    rw [hinode.itype]
    split
    · rfl
    · exact congrArg some (h.fs.inodes.read ino 0 size)

theorem stat (path : Str) :
    (twin.stat path).map (fun inode => (inode.itype, inode.size, inode.data)) =
      (vfs.stat path).map fun inode => (inode.itype, inode.size, inode.data) := by
  unfold VFS.stat
  rcases h.resolve_cases hrooted path with
    ⟨hnone, hnone'⟩ | ⟨ino, inode, inode', hino, hino', hget, hget', hinode⟩
  · rw [hnone, hnone']
  · rw [hino, hino']
    have hget : Filesystem.lookup (vfs.filesystems ()) ino = _ := hget
    have hget' : Filesystem.lookup (twin.filesystems ()) (ino + 1) = _ := hget'
    dsimp only
    rw [hget, hget', Option.map_some, Option.map_some, hinode.itype, hinode.size, hinode.data]

theorem readdir (path : Str) :
    (twin.readdir path).map Prod.fst = (vfs.readdir path).map Prod.fst := by
  unfold VFS.readdir
  rcases h.resolve_cases hrooted path with
    ⟨hnone, hnone'⟩ | ⟨ino, inode, inode', hino, hino', -⟩
  · rw [hnone, hnone']
  · rw [hino, hino']
    exact h.fs.inodes.readdir ino

theorem open_ (path flags : Str) :
    ((openReply (twin.open_ path flags)).1 = (openReply (vfs.open_ path flags)).1) ∧
      Twins (openReply (vfs.open_ path flags)).2 (openReply (twin.open_ path flags)).2 := by
  unfold VFS.open_
  rcases h.resolve_cases hrooted path with
    ⟨hnone, hnone'⟩ | ⟨ino, inode, inode', hino, hino', hget, hget', hinode⟩
  · rw [hnone, hnone']
    exact ⟨rfl, h⟩
  · rw [hino, hino']
    have hlookup : Filesystem.lookup (vfs.filesystems ()) ino = _ := hget
    have hlookup' : Filesystem.lookup (twin.filesystems ()) (ino + 1) = _ := hget'
    dsimp only
    rw [hlookup, hlookup']
    dsimp only
    rw [hinode.itype, h.nextFd]
    by_cases hwrites : ('w' ∈ flags ∨ 'a' ∈ flags) ∧ inode.itype = .dir
    · rw [if_pos hwrites, if_pos hwrites]
      rcases h.fs.create ino (baseName path) .file with
        ⟨child, child', fs, fs', hok, hok', hchild, -, hfs⟩ |
          ⟨error, error', herror, herror', htaken⟩
      · have hok : Filesystem.create (vfs.filesystems ()) ino (baseName path) .file = _ := hok
        have hok' : Filesystem.create (twin.filesystems ()) (ino + 1) (baseName path) .file = _ :=
          hok'
        simp only [hok, hok']
        exact ⟨rfl, (h.setFs hfs).addOpenFile path flags hchild⟩
      · have herror : Filesystem.create (vfs.filesystems ()) ino (baseName path) .file = _ :=
          herror
        have herror' : Filesystem.create (twin.filesystems ()) (ino + 1) (baseName path) .file =
          _ := herror'
        obtain ⟨message, message', rfl, rfl⟩ := htaken inode hget hwrites.2
        simp only [herror, herror', setFs_self]
        refine ⟨rfl, ?_⟩
        -- the name is looked up again, with the directory itself as a fallback
        have hname : Option.Rel (Inode.Twin 1)
            (Filesystem.lookupName (vfs.filesystems ()) ino (baseName path))
            (Filesystem.lookupName (twin.filesystems ()) (ino + 1) (baseName path)) :=
          h.fs.inodes.lookupName ino (baseName path)
        apply h.addOpenFile path flags
        revert hname
        generalize Filesystem.lookupName (vfs.filesystems ()) ino (baseName path) = child
        generalize Filesystem.lookupName (twin.filesystems ()) (ino + 1) (baseName path) = child'
        intro hname
        cases hname with
        | none => exact hinode
        | some hchild => exact hchild
    · rw [if_neg hwrites, if_neg hwrites]
      exact ⟨rfl, h.addOpenFile path flags hinode⟩

theorem file_cases (fd : Int) :
    (vfs.openFiles.get? fd = none ∧ twin.openFiles.get? fd = none) ∨
      ∃ file file', vfs.openFiles.get? fd = some file ∧ twin.openFiles.get? fd = some file' ∧
        OpenFile.Twin file file' ∧ (vfs.resolvePath file.path).1 = some () ∧
        (twin.resolvePath file'.path).1 = some () := by
  have hfd := h.openFiles fd
  revert hfd
  generalize vfs.openFiles.get? fd = file
  generalize twin.openFiles.get? fd = file'
  intro hfd
  cases hfd with
  | none => exact Or.inl ⟨rfl, rfl⟩
  | some hfile =>
      refine Or.inr ⟨_, _, rfl, rfl, hfile, ?_, h.resolvePath_fst hrooted _⟩
      rw [hrooted.resolvePath_drop]

theorem read (fd size : Int) :
    (twin.read fd size).1 = (vfs.read fd size).1 ∧
      Twins (vfs.read fd size).2 (twin.read fd size).2 := by
  unfold VFS.read
  rcases h.file_cases hrooted fd with
    ⟨hnone, hnone'⟩ | ⟨file, file', hfile, hfile', htwin, hfs, hfs'⟩
  · rw [hnone, hnone']
    exact ⟨rfl, h⟩
  · rw [hfile, hfile']
    dsimp only
    rw [hfs, hfs']
    have hbytes : Filesystem.read (twin.filesystems ()) file'.ino file'.position size =
        Filesystem.read (vfs.filesystems ()) file.ino file.position size := by
      rw [htwin.ino, htwin.position]
      exact h.fs.inodes.read file.ino file.position size
    dsimp only
    rw [hbytes]
    exact ⟨rfl, h.advance fd _⟩

theorem write (fd : Int) (hopen : ∀ file, vfs.openFiles.get? fd = some file →
    file.ino ∈ (vfs.filesystems ()).inodes) (data : Bytes) :
    (twin.write fd data).1 = (vfs.write fd data).1 ∧
      Twins (vfs.write fd data).2 (twin.write fd data).2 := by
  unfold VFS.write
  rcases h.file_cases hrooted fd with
    ⟨hnone, hnone'⟩ | ⟨file, file', hfile, hfile', htwin, hfs, hfs'⟩
  · rw [hnone, hnone']
    exact ⟨rfl, h⟩
  · rw [hfile, hfile']
    dsimp only
    rw [hfs, hfs']
    obtain ⟨hcount, hwritten⟩ := h.fs.write (hopen file hfile) file.position data
    have hcount : (Filesystem.write (twin.filesystems ()) file'.ino file'.position data).1 =
        (Filesystem.write (vfs.filesystems ()) file.ino file.position data).1 := by
      rw [htwin.ino, htwin.position]
      exact hcount
    have hwritten : Ext2FS.Twins
        (Filesystem.write (vfs.filesystems ()) file.ino file.position data).2
        (Filesystem.write (twin.filesystems ()) file'.ino file'.position data).2 := by
      rw [htwin.ino, htwin.position]
      exact hwritten
    dsimp only
    rw [hcount]
    refine ⟨rfl, ?_⟩
    split
    · exact (h.setFs hwritten).advance fd _
    · exact h.setFs hwritten

end Requests

theorem respond (h : Twins vfs twin) {s : FileStore} (hs : Represents vfs s)
    (request : FileRequest) :
    (VFS.respond twin request).1 = (VFS.respond vfs request).1 ∧
      Twins (VFS.respond vfs request).2 (VFS.respond twin request).2 := by
  have hrooted := hs.rooted
  cases request with
  | mkdir path =>
      obtain ⟨hreply, hnext⟩ := h.mkdir hrooted path
      exact ⟨congrArg FileReply.flag hreply, hnext⟩
  | createFile path content =>
      obtain ⟨hreply, hnext⟩ := h.createFile hrooted path content
      exact ⟨congrArg FileReply.flag hreply, hnext⟩
  | writePath path data =>
      obtain ⟨hreply, hnext⟩ := h.writePath hrooted path data
      exact ⟨congrArg FileReply.count hreply, hnext⟩
  | readPath path size => exact ⟨congrArg FileReply.data (h.readPath hrooted path size), h⟩
  | stat path => exact ⟨congrArg FileReply.node (h.stat hrooted path), h⟩
  | readdir path => exact ⟨congrArg FileReply.names (h.readdir hrooted path), h⟩
  | open_ path flags => exact h.open_ hrooted path flags
  | read fd size =>
      obtain ⟨hreply, hnext⟩ := h.read hrooted fd size
      exact ⟨congrArg (fun data => FileReply.data (some data)) hreply, hnext⟩
  | write fd data =>
      have hopen : ∀ file, vfs.openFiles.get? fd = some file →
          file.ino ∈ (vfs.filesystems ()).inodes := by
        intro file hfile
        rcases hs.handle_cases fd with ⟨hnone, -⟩ | ⟨file', names, inode, hfile', -, -, hget, -⟩
        · rw [hfile] at hnone
          cases hnone
        · rw [hfile] at hfile'
          cases hfile'
          exact Dict.mem_of_get? hget
      obtain ⟨hreply, hnext⟩ := h.write hrooted fd hopen data
      exact ⟨congrArg FileReply.count hreply, hnext⟩
  | close fd =>
      obtain ⟨hreply, hnext⟩ := h.close fd
      exact ⟨congrArg FileReply.flag hreply, hnext⟩

end Twins

def Stores (twin : VFS Unit Ext2FS) (s : FileStore) : Prop :=
  ∃ vfs, Represents vfs s ∧ Twins vfs twin

theorem stores_fileStore : Service.Refines Stores respond FileStore.serve where
  reply := by
    rintro twin s ⟨vfs, hs, h⟩ request
    rw [(h.respond hs request).1, refines_fileStore.reply hs request]
  next := by
    rintro twin s ⟨vfs, hs, h⟩ request
    exact ⟨_, refines_fileStore.next hs request, (h.respond hs request).2⟩

def ext2Vfs (volumeName source : Str) : VFS Unit Ext2FS :=
  (init fun _ => Ext2FS.init volumeName).mount "/".toList () source

theorem twins_first_mkdir (volumeName source : Str) {path : Str}
    (h : ((ext2Vfs volumeName source).mkdir path).1 = true) :
    Twins (rootVfs source) ((ext2Vfs volumeName source).mkdir path).2 := by
  unfold VFS.mkdir at h ⊢
  cases hresolve : (ext2Vfs volumeName source).resolve? (parentPath path) with
  | none =>
      rw [hresolve] at h
      cases h
  | some found =>
      obtain ⟨⟨⟩, ino⟩ := found
      rw [hresolve] at h
      dsimp only at h ⊢
      by_cases hino : ino = 2
      · subst hino
        have hok : Filesystem.mkdir ((ext2Vfs volumeName source).filesystems ()) 2
            (baseName path) = (.ok { ino := 2, itype := .dir },
              ((Ext2FS.init volumeName).mkdir 2 (baseName path)).2) := rfl
        rw [hok]
        refine ⟨rfl, ?_, fun _ => Option.Rel.none, rfl⟩
        have hstored : ((ext2Vfs volumeName source).setFs ()
            ((Ext2FS.init volumeName).mkdir 2 (baseName path)).2).filesystems () =
            ((Ext2FS.init volumeName).mkdir 2 (baseName path)).2 := filesystems_setFs _ _
        dsimp only
        rw [hstored]
        exact Ext2FS.twins_first_mkdir volumeName (baseName path)
      · -- a new volume has no other directory
        obtain ⟨error, herror⟩ :=
          Ext2FS.create_init_of_ne volumeName hino (baseName path) .dir
        have herror : Filesystem.mkdir ((ext2Vfs volumeName source).filesystems ()) ino
          (baseName path) = _ := herror
        rw [herror] at h
        cases h

/-- Once a directory has been made on a new ext2 volume, the VFS gives the replies of a new
file store, without that directory, whatever is requested from then on. -/
theorem replies_ext2_eq_fileStore (volumeName source : Str) {path : Str}
    (h : ((ext2Vfs volumeName source).mkdir path).1 = true) (requests : List FileRequest) :
    Service.replies respond ((ext2Vfs volumeName source).mkdir path).2 requests =
      Service.replies FileStore.serve FileStore.init requests :=
  stores_fileStore.replies_eq
    ⟨rootVfs source, represents_rootVfs source, twins_first_mkdir volumeName source h⟩ requests

/-- The first directory is not there afterwards, and a second one with its name can be made. -/
theorem replies_ext2_eq_fileStore_home :
    let vfs := ((ext2Vfs "vol".toList "dev".toList).mkdir "/home".toList).2
    Service.replies respond vfs
        [.stat "/home".toList, .mkdir "/home".toList, .readdir "/".toList] =
      [.node none, .flag true, .names [".".toList, "..".toList, "home".toList]] ∧
    ∀ requests, Service.replies respond vfs requests =
      Service.replies FileStore.serve FileStore.init requests := by
  intro vfs
  have hmade : ((ext2Vfs "vol".toList "dev".toList).mkdir "/home".toList).1 = true := by decide
  exact ⟨by decide, replies_ext2_eq_fileStore "vol".toList "dev".toList hmade⟩

end VFS

end ComputeKernel.Vfs
