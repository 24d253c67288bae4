import ComputeKernel.Fs.Positional
import ComputeKernel.Vfs.Opening
import ComputeKernel.Vfs.Streams

/-!
# Positions of open files

No call removes an inode or shortens a file, so a descriptor stays at or before the end of
the file it was opened on.  A read that asks for a negative number of bytes may still
get some.
-/

namespace ComputeKernel.Fs

open Lib

theorem length_spliceAt (old : Bytes) {offset : Int} (h : 0 ≤ offset) (data : Bytes) :
    (spliceAt old offset data).length = max old.length (offset.toNat + data.length) := by
  obtain ⟨n, rfl⟩ := Int.eq_ofNat_of_zero_le h
  rw [spliceAt_eq_overlay, length_overlay]
  rfl

theorem spliceAt_nil (old : Bytes) {offset : Int} (hlow : 0 ≤ offset)
    (hhigh : offset ≤ old.length) : spliceAt old offset [] = old := by
  have hgap : ¬ offset > old.length := by omega
  rw [spliceAt, if_neg hgap, sliceTo_of_nonneg old hlow, List.length_nil, Int.natCast_zero,
    Int.add_zero, sliceFrom_of_nonneg old hlow, List.append_nil, List.take_append_drop]

namespace TmpFS

def Grows (fs fs' : TmpFS) : Prop :=
  ∀ ino inode, fs.inodes.get? ino = some inode → ∃ inode', fs'.inodes.get? ino = some inode' ∧
    inode'.itype = inode.itype ∧ inode.data.length ≤ inode'.data.length

theorem Grows.refl (fs : TmpFS) : Grows fs fs :=
  fun _ inode h => ⟨inode, h, rfl, Nat.le_refl _⟩

theorem Grows.trans {fs fs' fs'' : TmpFS} (h : Grows fs fs') (h' : Grows fs' fs'') :
    Grows fs fs'' := by
  intro ino inode hget
  obtain ⟨inode', hget', htype', hlength'⟩ := h ino inode hget
  obtain ⟨inode'', hget'', htype'', hlength''⟩ := h' ino inode' hget'
  exact ⟨inode'', hget'', htype''.trans htype', hlength'.trans hlength''⟩

theorem grows_update (fs : TmpFS) (ino : Int) {f : Inode → Inode}
    (htype : ∀ inode, (f inode).itype = inode.itype)
    (hdata : ∀ inode, inode.data.length ≤ (f inode).data.length) : Grows fs (fs.update ino f) := by
  intro other inode hget
  refine ⟨_, (Dict.get?_modify_eq_map _ _ _ _).trans (congrArg (Option.map _) hget), ?_⟩
  split
  · exact ⟨htype inode, hdata inode⟩
  · exact ⟨rfl, Nat.le_refl _⟩

theorem Inv.grows_create {fs : TmpFS} (h : Inv fs) (parentIno : Int) (name : Str)
    (itype : InodeType) : Grows fs (fs.create parentIno name itype).2 := by
  cases herror : InodeTable.createError "tmpfs".toList fs.inodes parentIno name with
  | some error =>
      rw [create_of_error herror]
      exact Grows.refl fs
  | none =>
      obtain ⟨parent, hparent, -⟩ := InodeTable.createError_eq_none.mp herror
      have hfresh : (fs.newInode itype 0o644).1.ino ∉ fs.inodes := h.fresh
      rw [create_of_none herror]
      intro ino inode hget
      obtain ⟨inode', hget', htype, hdata⟩ :=
        InodeTable.get?_enter_of_some name hparent hfresh hget
      exact ⟨inode', hget', htype, Nat.le_of_eq (congrArg List.length hdata.symm)⟩

theorem Inv.grows_createWith {fs : TmpFS} (h : Inv fs) (parentIno : Int) (name : Str)
    (itype : InodeType) {f : Inode → Inode} (htype : ∀ inode, (f inode).itype = inode.itype)
    (hdata : ∀ inode, (f inode).data = inode.data) :
    Grows fs (fs.createWith parentIno name itype f).2 := by
  apply createWith_keeps (h.grows_create parentIno name itype)
  intro fs' ino hgrows
  refine hgrows.trans (grows_update fs' ino htype fun inode => ?_)
  rw [hdata]

theorem grows_write (fs : TmpFS) (ino : Int) {offset : Int} (hoffset : 0 ≤ offset)
    (data : Bytes) : Grows fs (fs.write ino offset data).2 := by
  rcases InodeTable.write_cases (-2) fs.inodes ino offset data with
    ⟨inode, -, -, hwrite⟩ | ⟨-, hwrite, -⟩
  · simp only [TmpFS.write, hwrite]
    refine grows_update fs ino (fun _ => rfl) fun inode => ?_
    rw [Inode.splice_data, length_spliceAt _ hoffset]
    exact Nat.le_max_left _ _
  · simp only [TmpFS.write, hwrite]
    exact Grows.refl fs

theorem Inv.grows_step {fs : TmpFS} (h : Inv fs) (op : Op) : Grows fs (fs.step op) := by
  cases op with
  | create parentIno name itype => exact h.grows_create parentIno name itype
  | mkdir parentIno name => exact h.grows_create parentIno name .dir
  | symlink parentIno name target =>
      exact h.grows_createWith parentIno name .symlink (fun _ => rfl) fun _ => rfl
  | mknod parentIno name major minor itype =>
      exact h.grows_createWith parentIno name itype (fun _ => rfl) fun _ => rfl
  | write ino offset data => exact grows_write fs ino (Int.natCast_nonneg offset) data

end TmpFS

end ComputeKernel.Fs

namespace ComputeKernel.Vfs.VFS

open Lib Lib.Run Fs

/-! ## Descriptors stand inside their files -/

def StandsIn (fs : TmpFS) (file : OpenFile) : Prop :=
  ∃ inode, fs.inodes.get? file.ino = some inode ∧ 0 ≤ file.position ∧
    file.position ≤ inode.data.length

structure Placed (vfs : VFS Unit TmpFS) : Prop where
  ready : Ready vfs
  stands : ∀ fd file, vfs.openFiles.get? fd = some file → StandsIn (vfs.filesystems ()) file

theorem StandsIn.grows {fs fs' : TmpFS} {file : OpenFile} (h : StandsIn fs file)
    (hgrows : TmpFS.Grows fs fs') : StandsIn fs' file := by
  obtain ⟨inode, hget, hlow, hhigh⟩ := h
  obtain ⟨inode', hget', -, hlength⟩ := hgrows file.ino inode hget
  exact ⟨inode', hget', hlow, by omega⟩

theorem length_slice_le (data : Bytes) {position : Int} (hlow : 0 ≤ position)
    (hhigh : position ≤ data.length) (size : Int) :
    position + (slice data position (position + size)).length ≤ data.length := by
  have hshort : (sliceTo data (position + size)).length ≤ data.length := List.length_take_le' _ _
  rw [slice, sliceFrom_of_nonneg _ (Int.natCast_nonneg _), clampIndex_of_nonneg _ hlow,
    List.length_drop, Int.toNat_natCast]
  omega

theorem StandsIn.read {fs : TmpFS} {file : OpenFile} (h : StandsIn fs file) (size : Int) :
    StandsIn fs { file with
      position := file.position + (fs.read file.ino file.position size).length } := by
  obtain ⟨inode, hget, hlow, hhigh⟩ := h
  refine ⟨inode, hget, by dsimp only; omega, ?_⟩
  dsimp only
  rw [TmpFS.read, InodeTable.read, hget]
  dsimp only
  split
  · simpa using hhigh
  · exact length_slice_le inode.data hlow hhigh size

theorem filesystems_setFs {F : Type} (vfs : VFS Unit F) (fs : F) :
    (vfs.setFs () fs).filesystems () = fs := by
  simp [VFS.setFs]

theorem get?_advance (vfs : VFS Unit TmpFS) (fd n other : Int) :
    (vfs.advance fd n).openFiles.get? other = (vfs.openFiles.get? other).map fun file =>
      if other = fd then { file with position := file.position + n } else file :=
  Dict.get?_modify_eq_map _ _ _ _

theorem advance_zero (vfs : VFS Unit TmpFS) (fd : Int) : vfs.advance fd 0 = vfs := by
  unfold VFS.advance
  cases hget : vfs.openFiles.get? fd with
  | none => rw [Dict.modify_of_not_mem hget]
  | some file =>
      rw [Dict.modify_of_get? _ hget, Int.add_zero, Dict.set_eq_self hget]

namespace Rooted

variable {vfs : VFS Unit TmpFS} {fd : Int} {file : OpenFile}

theorem read_eq (h : Rooted vfs) (hfile : vfs.openFiles.get? fd = some file) (size : Int) :
    vfs.read fd size =
      ((vfs.filesystems ()).read file.ino file.position size,
        vfs.advance fd ((vfs.filesystems ()).read file.ino file.position size).length) := by
  unfold VFS.read
  rw [hfile]
  dsimp only
  rw [h.resolvePath_drop]
  rfl

theorem write_eq (h : Rooted vfs) (hfile : vfs.openFiles.get? fd = some file) {inode : Inode}
    (hget : (vfs.filesystems ()).inodes.get? file.ino = some inode)
    (hregular : inode.itype = .file) (data : Bytes) :
    vfs.write fd data = ((data.length : Int),
      (vfs.setFs () ((vfs.filesystems ()).update file.ino fun inode =>
        inode.splice file.position data)).advance fd data.length) := by
  have hwrite : Filesystem.write (vfs.filesystems ()) file.ino file.position data =
      ((data.length : Int), (vfs.filesystems ()).update file.ino fun inode =>
        inode.splice file.position data) := by
    change TmpFS.write _ _ _ _ = _
    rw [TmpFS.write, InodeTable.write_of_file hget hregular]
    rfl
  unfold VFS.write
  rw [hfile]
  dsimp only
  rw [h.resolvePath_drop]
  dsimp only
  rw [hwrite]
  dsimp only
  split
  · rfl
  · rename_i hempty
    have hzero : (data.length : Int) = 0 := by omega
    rw [hzero, advance_zero]

theorem get?_write (h : Rooted vfs) (hfile : vfs.openFiles.get? fd = some file) {inode : Inode}
    (hget : (vfs.filesystems ()).inodes.get? file.ino = some inode)
    (hregular : inode.itype = .file) (data : Bytes) :
    ((vfs.write fd data).2.filesystems ()).inodes.get? file.ino =
      some (inode.splice file.position data) := by
  rw [h.write_eq hfile hget hregular]
  simp [VFS.advance, VFS.setFs, TmpFS.update, Dict.get?_modify, hget]

theorem write_of_not_file (h : Rooted vfs) (hfile : vfs.openFiles.get? fd = some file)
    (hother : ∀ inode, (vfs.filesystems ()).inodes.get? file.ino = some inode →
      inode.itype ≠ .file) (data : Bytes) :
    (vfs.write fd data).2 = vfs ∧ (vfs.write fd data).1 < 0 := by
  rcases write_cases vfs fd data with ⟨hneg, hsame⟩ | ⟨hcount, -⟩
  · exact ⟨hsame, hneg⟩
  · have hcode : (vfs.write fd data).1 =
        (InodeTable.write (-2) (vfs.filesystems ()).inodes file.ino file.position data).1 := by
      unfold VFS.write
      rw [hfile]
      dsimp only
      rw [h.resolvePath_drop]
      rfl
    rcases InodeTable.write_cases (-2) (vfs.filesystems ()).inodes file.ino file.position data
      with ⟨inode, hget, hregular, -⟩ | ⟨-, -, herror⟩
    · exact absurd hregular (hother inode hget)
    · omega

end Rooted

namespace Placed

variable {vfs : VFS Unit TmpFS}

theorem of_grows (h : Placed vfs) {vfs' : VFS Unit TmpFS} (hready : Ready vfs')
    (hfiles : vfs'.openFiles = vfs.openFiles)
    (hgrows : TmpFS.Grows (vfs.filesystems ()) (vfs'.filesystems ())) : Placed vfs' where
  ready := hready
  stands fd file hget := by
    rw [hfiles] at hget
    exact (h.stands fd file hget).grows hgrows

theorem setFs (h : Placed vfs) {fs : TmpFS} (hinv : TmpFS.Inv fs)
    (hgrows : TmpFS.Grows (vfs.filesystems ()) fs) : Placed (vfs.setFs () fs) := by
  refine h.of_grows ⟨h.ready.rooted.setFs hinv, h.ready.nextFd⟩ rfl ?_
  rw [filesystems_setFs]
  exact hgrows

theorem advance (h : Placed vfs) {fd n : Int}
    (hmoved : ∀ file, vfs.openFiles.get? fd = some file →
      StandsIn (vfs.filesystems ()) { file with position := file.position + n }) :
    Placed (vfs.advance fd n) where
  ready := ⟨h.ready.rooted.of_same rfl rfl, h.ready.nextFd⟩
  stands other file hget := by
    rw [get?_advance] at hget
    obtain ⟨old, hold, rfl⟩ := Option.map_eq_some_iff.mp hget
    split
    · rename_i hother
      subst hother
      exact hmoved old hold
    · exact h.stands other old hold

theorem addOpenFile (h : Placed vfs) {inode : Inode}
    (hget : (vfs.filesystems ()).lookup inode.ino = some inode) (path flags : Str) :
    Placed (vfs.addOpenFile path flags () inode) where
  ready :=
    ⟨h.ready.rooted.of_same rfl rfl, Int.le_trans h.ready.nextFd (by change _ ≤ _ + 1; omega)⟩
  stands fd file hfile := by
    have hsize := h.ready.rooted.inv.size hget
    have hfile : (vfs.openFiles.set vfs.nextFd _).get? fd = some file := hfile
    rw [Dict.get?_set] at hfile
    split at hfile
    · cases hfile
      refine ⟨inode, hget, ?_, ?_⟩
      · dsimp only
        split <;> omega
      · dsimp only
        split <;> omega
    · exact h.stands fd file hfile

theorem open_ (h : Placed vfs) (path flags : Str) : Placed (vfs.open_ path flags).2 := by
  rcases h.ready.rooted.open_spec path flags with ⟨-, hopen⟩ | ⟨inode, hstat, -, hopen⟩ |
    ⟨dir, dir', child, fs, -, -, -, hopen, hrooted, -, -, hchild, hfs⟩
  · rw [hopen]
    exact h
  · rw [hopen]
    exact h.addOpenFile (h.ready.rooted.stat_drop.mp hstat).2 path flags
  · have hgrows := h.ready.rooted.inv.grows_create dir.ino (baseName path) .file
    rw [← hfs] at hgrows
    have hinv : TmpFS.Inv fs := by simpa [VFS.setFs] using hrooted.inv
    rw [hopen]
    refine (h.setFs hinv hgrows).addOpenFile ?_ path flags
    simpa [VFS.setFs] using hchild

theorem read (h : Placed vfs) (fd size : Int) : Placed (vfs.read fd size).2 := by
  cases hfile : vfs.openFiles.get? fd with
  | none =>
      unfold VFS.read
      rw [hfile]
      exact h
  | some file =>
      rw [h.ready.rooted.read_eq hfile]
      refine h.advance fun file' hfile' => ?_
      cases hfile.symm.trans hfile'
      exact (h.stands fd file hfile).read size

theorem write (h : Placed vfs) (fd : Int) (data : Bytes) : Placed (vfs.write fd data).2 := by
  cases hfile : vfs.openFiles.get? fd with
  | none =>
      unfold VFS.write
      rw [hfile]
      exact h
  | some file =>
      obtain ⟨inode, hget, hlow, hhigh⟩ := h.stands fd file hfile
      by_cases hregular : inode.itype = .file
      · rw [h.ready.rooted.write_eq hfile hget hregular]
        have hinv := h.ready.rooted.inv.update (TmpFS.keepsShape_splice file.position data) file.ino
        have hgrows : TmpFS.Grows (vfs.filesystems ()) ((vfs.filesystems ()).update file.ino
            fun inode => inode.splice file.position data) := by
          refine TmpFS.grows_update _ _ (fun _ => rfl) fun inode => ?_
          rw [Inode.splice_data, length_spliceAt _ hlow]
          exact Nat.le_max_left _ _
        refine (h.setFs hinv hgrows).advance fun file' hfile' => ?_
        cases hfile.symm.trans hfile'
        refine ⟨inode.splice file.position data, ?_, by dsimp only; omega, ?_⟩
        · simp [VFS.setFs, TmpFS.update, Dict.get?_modify, hget]
        · dsimp only
          rw [Inode.splice_data, length_spliceAt _ hlow]
          omega
      · rw [(h.ready.rooted.write_of_not_file hfile (fun inode' hget' => ?_) data).1]
        · exact h
        · cases hget.symm.trans hget'
          exact hregular

theorem close (h : Placed vfs) (fd : Int) : Placed (vfs.close fd).2 where
  ready := ready_act vfs (.close fd) h.ready
  stands other file hget := by
    unfold VFS.close at hget ⊢
    cases hfile : vfs.openFiles.get? fd with
    | none =>
        rw [hfile] at hget
        exact h.stands other file hget
    | some closed =>
        rw [hfile] at hget
        have hget : (vfs.openFiles.erase fd).get? other = some file := hget
        rw [Dict.get?_erase] at hget
        split at hget
        · cases hget
        · exact h.stands other file hget

theorem grows_fill (fs : TmpFS) (ino : Int) (content : Bytes) :
    TmpFS.Grows fs (fill fs ino content) := by
  unfold fill
  split
  · exact TmpFS.Grows.refl fs
  · refine (TmpFS.grows_write fs ino (Int.le_refl 0) content).trans ?_
    exact TmpFS.grows_update _ ino (fun _ => rfl) fun _ => Nat.le_refl _

theorem grows_createFile (h : Placed vfs) (path : Str) (content : Bytes) :
    TmpFS.Grows (vfs.filesystems ()) ((vfs.createFile path content).2.filesystems ()) := by
  unfold VFS.createFile
  split
  · exact TmpFS.Grows.refl _
  · rename_i ref parentIno _
    have hgrows := h.ready.rooted.inv.grows_create parentIno (baseName path) .file
    have hcreate : Filesystem.create (vfs.filesystems ()) parentIno (baseName path) .file =
      (vfs.filesystems ()).create parentIno (baseName path) .file := rfl
    rw [← hcreate] at hgrows
    split
    · rename_i inode fs heq
      rw [heq] at hgrows
      have hfilled := hgrows.trans (grows_fill fs inode.ino content)
      rw [filesystems_setFs]
      exact hfilled
    · rename_i heq
      rw [heq] at hgrows
      rw [filesystems_setFs]
      exact hgrows

theorem openFiles_createFile (vfs : VFS Unit TmpFS) (path : Str) (content : Bytes) :
    (vfs.createFile path content).2.openFiles = vfs.openFiles := by
  unfold VFS.createFile
  split
  · rfl
  · split <;> rfl

theorem grows_mkdir (h : Placed vfs) (path : Str) :
    TmpFS.Grows (vfs.filesystems ()) ((vfs.mkdir path).2.filesystems ()) := by
  unfold VFS.mkdir
  split
  · exact TmpFS.Grows.refl _
  · rename_i ref parentIno _
    have hgrows := h.ready.rooted.inv.grows_create parentIno (baseName path) .dir
    have hmkdir : Filesystem.mkdir (vfs.filesystems ()) parentIno (baseName path) =
      (vfs.filesystems ()).create parentIno (baseName path) .dir := rfl
    rw [← hmkdir] at hgrows
    split
    · rename_i heq
      rw [heq] at hgrows
      rw [filesystems_setFs]
      exact hgrows
    · rename_i heq
      rw [heq] at hgrows
      rw [filesystems_setFs]
      exact hgrows

theorem grows_writePath (h : Placed vfs) (path : Str) (data : Bytes) :
    TmpFS.Grows (vfs.filesystems ()) ((vfs.writePath path data).2.filesystems ()) := by
  unfold VFS.writePath
  split
  · exact h.grows_createFile path data
  · rename_i ref ino _
    have hgrows := TmpFS.grows_write (vfs.filesystems ()) ino (Int.le_refl 0) data
    rw [filesystems_setFs]
    exact hgrows

theorem openFiles_step (vfs : VFS Unit TmpFS) (op : Op) :
    (vfs.step op).openFiles = vfs.openFiles := by
  cases op with
  | mkdir path =>
      change (vfs.mkdir path).2.openFiles = _
      unfold VFS.mkdir
      split
      · rfl
      · split <;> rfl
  | createFile path content => exact openFiles_createFile vfs path content
  | writePath path data =>
      change (vfs.writePath path data).2.openFiles = _
      unfold VFS.writePath
      split
      · exact openFiles_createFile vfs path data
      · rfl

theorem step (h : Placed vfs) (op : Op) : Placed (vfs.step op) := by
  apply h.of_grows (ready_act vfs (.create op) h.ready) (openFiles_step vfs op)
  cases op with
  | mkdir path => exact h.grows_mkdir path
  | createFile path content => exact h.grows_createFile path content
  | writePath path data => exact h.grows_writePath path data

theorem act (h : Placed vfs) (action : Action) : Placed (vfs.act action) := by
  cases action with
  | create op => exact h.step op
  | open_ path flags => exact h.open_ path flags
  | read fd size => exact h.read fd size
  | write fd data => exact h.write fd data
  | close fd => exact h.close fd
  | driver op =>
      exact h.setFs (TmpFS.inv_step _ op h.ready.rooted.inv) (h.ready.rooted.inv.grows_step op)

end Placed

theorem placed_rootVfs (source : Str) : Placed (rootVfs source) where
  ready := ready_rootVfs source
  stands := nofun

theorem placed_run (source : Str) (actions : List Action) :
    Placed (run act (rootVfs source) actions) :=
  run_invariant (fun _ action h => h.act action) (placed_rootVfs source) actions

/-! ## Reading at a position -/

/-- The bytes from the position on, as many as were asked for and none for a negative
size, and the position behind them. -/
structure ReadsWindow (vfs : VFS Unit TmpFS) (fd size : Int) (file : OpenFile) (content : Bytes) :
    Prop where
  bytes : (vfs.read fd size).1 = (content.drop file.position.toNat).take size.toNat
  moved : (vfs.read fd size).2.openFiles.get? fd =
    some { file with position := file.position + (vfs.read fd size).1.length }

/-- In every state reached, a read of a regular file is bounded by its size exactly unless
the size is negative, counts back over the position, and not over the whole file. -/
theorem readsWindow_iff (source : Str) (actions : List Action) {fd : Int} {file : OpenFile}
    {inode : Inode} (size : Int)
    (hfile : (run act (rootVfs source) actions).openFiles.get? fd = some file)
    (hget : ((run act (rootVfs source) actions).filesystems ()).inodes.get? file.ino =
      some inode)
    (hregular : inode.itype = .file) :
    ReadsWindow (run act (rootVfs source) actions) fd size file inode.data ↔
      ¬ (file.position + size < 0 ∧ 0 < inode.data.length + size) := by
  have h := placed_run source actions
  generalize run act (rootVfs source) actions = vfs at h hfile hget ⊢
  obtain ⟨inode', hget', hlow, -⟩ := h.stands fd file hfile
  have hread := h.ready.rooted.read_eq hfile size
  have hdata : (vfs.filesystems ()).read file.ino file.position size =
      slice inode.data file.position (file.position + size) := by
    rw [TmpFS.read, InodeTable.read, hget]
    simp [hregular]
  rw [← slice_eq_window_iff inode.data hlow size, ← hdata]
  constructor
  · intro hwindow
    have hbytes := hwindow.bytes
    rw [hread] at hbytes
    exact hbytes
  · intro hbytes
    refine { bytes := ?_, moved := ?_ }
    · rw [hread]
      exact hbytes
    · rw [hread, get?_advance, hfile, Option.map_some, if_pos rfl]

/-- One byte less than none is asked for, of a file of three bytes. -/
theorem readsWindow_negative :
    let vfs := run act (rootVfs "tmpfs".toList)
      [.create (.createFile "/f".toList [1, 2, 3]), .open_ "/f".toList "r".toList]
    ∃ file inode, vfs.openFiles.get? 3 = some file ∧
      (vfs.filesystems ()).inodes.get? file.ino = some inode ∧ inode.itype = .file ∧
      (vfs.read 3 (-1)).1 = [1, 2] ∧ ¬ ReadsWindow vfs 3 (-1) file inode.data := by
  intro vfs
  have hbytes : (vfs.read 3 (-1)).1 = [1, 2] := by decide
  refine ⟨freshFile 3 "/f".toList 2 "r".toList, { ino := 2, size := 3, data := [1, 2, 3] },
    by decide, by decide, rfl, hbytes, fun h => ?_⟩
  have hwindow := h.bytes
  rw [hbytes] at hwindow
  cases hwindow

theorem readsWindow_iff_middle :
    let vfs := run act (rootVfs "tmpfs".toList)
      [.create (.createFile "/f".toList [1, 2, 3]), .open_ "/f".toList "r".toList, .read 3 1]
    ∃ file inode, vfs.openFiles.get? 3 = some file ∧
      (vfs.filesystems ()).inodes.get? file.ino = some inode ∧ inode.itype = .file ∧
      ReadsWindow vfs 3 (-1) file inode.data := by
  intro vfs
  have hfile : vfs.openFiles.get? 3 =
      some { freshFile 3 "/f".toList 2 "r".toList with position := 1 } := by decide
  have hget : (vfs.filesystems ()).inodes.get? 2 =
      some { ino := 2, size := 3, data := [1, 2, 3] } := by decide
  exact ⟨_, _, hfile, hget, rfl,
    (readsWindow_iff "tmpfs".toList _ (-1) hfile hget rfl).mpr (by decide)⟩

end ComputeKernel.Vfs.VFS
