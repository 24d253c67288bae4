import ComputeKernel.Fs.Volume

/-!
# Nothing is lost

No operation of a driver takes an inode away, gives it another type, cuts its data short or
removes or reorders what it lists.  The one exception is the first creation on an ext2 volume,
which takes the number of the root.
-/

namespace ComputeKernel.Fs

open Lib

/-- The inode later on: with at least as many bytes, and new names behind the old ones. -/
structure Inode.Lasts (inode inode' : Inode) : Prop where
  ino : inode'.ino = inode.ino
  itype : inode'.itype = inode.itype
  data : inode.data.length ≤ inode'.data.length
  children : inode.children.entries <+: inode'.children.entries

namespace Inode.Lasts

variable {inode inode' inode'' : Inode}

theorem refl (inode : Inode) : inode.Lasts inode :=
  ⟨rfl, rfl, Nat.le_refl _, List.prefix_refl _⟩

theorem trans (first : inode.Lasts inode') (second : inode'.Lasts inode'') :
    inode.Lasts inode'' where
  ino := second.ino.trans first.ino
  itype := second.itype.trans first.itype
  data := Nat.le_trans first.data second.data
  children := first.children.trans second.children

theorem get?_children (h : inode.Lasts inode') {name : Str} {ino : Int}
    (hname : inode.children.get? name = some ino) : inode'.children.get? name = some ino :=
  Dict.mem_entries.mp (h.children.subset (Dict.mem_entries.mpr hname))

theorem addEntry {name : Str} (h : inode.children.get? name = none) (ino : Int) :
    inode.Lasts (inode.addEntry name ino) where
  ino := rfl
  itype := rfl
  data := Nat.le_refl _
  children := by
    rw [addEntry_children, Dict.entries_set_of_not_mem (Dict.get?_eq_none.mp h)]
    exact List.prefix_append _ _

end Inode.Lasts

theorem length_le_slices {α : Type*} (xs : List α) (offset : Int) (n : Nat) :
    xs.length ≤ (sliceTo xs offset).length + n + (sliceFrom xs (offset + n)).length := by
  unfold sliceTo sliceFrom clampIndex
  rw [List.length_take, List.length_drop]
  split
  · split
    · omega
    · omega
  · split
    · omega
    · omega

theorem length_le_spliceAt (old : Bytes) (offset : Int) (data : Bytes) :
    old.length ≤ (spliceAt old offset data).length := by
  have hpadded : ∀ padded : Bytes, old.length ≤ padded.length →
      old.length ≤ (sliceTo padded offset ++ data ++
        sliceFrom padded (offset + data.length)).length := by
    intro padded hpadded
    rw [List.length_append, List.length_append]
    exact Nat.le_trans hpadded (length_le_slices padded offset data.length)
  unfold spliceAt
  split
  · apply hpadded
    rw [List.length_append]
    omega
  · exact hpadded old (Nat.le_refl _)

theorem Inode.lasts_splice (inode : Inode) (offset : Int) (data : Bytes) :
    inode.Lasts (inode.splice offset data) :=
  ⟨rfl, rfl, length_le_spliceAt _ _ _, List.prefix_refl _⟩

namespace InodeTable

def Lasts (inodes inodes' : InodeTable) : Prop :=
  ∀ ino inode, inodes.get? ino = some inode →
    ∃ inode', inodes'.get? ino = some inode' ∧ inode.Lasts inode'

variable {inodes inodes' inodes'' : InodeTable}

theorem Lasts.refl (inodes : InodeTable) : inodes.Lasts inodes :=
  fun _ inode h => ⟨inode, h, Inode.Lasts.refl inode⟩

theorem Lasts.trans (first : inodes.Lasts inodes') (second : inodes'.Lasts inodes'') :
    inodes.Lasts inodes'' := by
  intro ino inode h
  obtain ⟨inode', h', hlasts⟩ := first ino inode h
  obtain ⟨inode'', h'', hlasts'⟩ := second ino inode' h'
  exact ⟨inode'', h'', hlasts.trans hlasts'⟩

theorem Lasts.lookupName (h : inodes.Lasts inodes') {parentIno : Int} {name : Str}
    {child : Inode} (hname : inodes.lookupName parentIno name = some child) :
    ∃ child', inodes'.lookupName parentIno name = some child' ∧ child'.ino = child.ino := by
  obtain ⟨parent, ino, hparent, hdir, hlisted, hchild⟩ := lookupName_eq_some.mp hname
  obtain ⟨parent', hparent', hlasts⟩ := h _ _ hparent
  obtain ⟨child', hchild', hsame⟩ := h _ _ hchild
  exact ⟨child', lookupName_eq_some.mpr ⟨parent', ino, hparent', hlasts.itype.trans hdir,
    hlasts.get?_children hlisted, hchild'⟩, hsame.ino⟩

theorem Lasts.readdir (h : inodes.Lasts inodes') (ino : Int) :
    inodes.readdir ino <+: inodes'.readdir ino := by
  unfold InodeTable.readdir
  cases hget : inodes.get? ino with
  | none => exact List.nil_prefix
  | some inode =>
      obtain ⟨inode', hget', hlasts⟩ := h ino inode hget
      rw [hget']
      dsimp only
      rw [hlasts.itype]
      split
      · exact List.prefix_refl _
      · obtain ⟨entries, hentries⟩ := hlasts.children
        exact ⟨entries, congrArg (fun names => _ :: _ :: names) hentries⟩

theorem lasts_enter {parentIno : Int} {name : Str} {child parent : Inode}
    (hparent : inodes.get? parentIno = some parent) (hname : parent.children.get? name = none)
    (hfresh : child.ino ∉ inodes) : inodes.Lasts (enter inodes parentIno name child) := by
  intro ino inode hget
  have hne : ino ≠ child.ino := by
    rintro rfl
    exact hfresh (Dict.mem_of_get? hget)
  rw [get?_enter hparent hfresh, if_neg hne]
  by_cases hdir : ino = parentIno
  · rw [hdir, hparent] at hget
    cases hget
    rw [if_pos hdir]
    exact ⟨_, rfl, Inode.Lasts.addEntry hname _⟩
  · rw [if_neg hdir]
    exact ⟨inode, hget, Inode.Lasts.refl inode⟩

theorem lasts_modify {f : Inode → Inode} (hf : ∀ inode : Inode, inode.Lasts (f inode))
    (inodes : InodeTable) (ino : Int) : inodes.Lasts (inodes.modify ino f) := by
  intro other inode hget
  rw [Dict.get?_modify_eq_map, hget, Option.map_some]
  split
  · exact ⟨_, rfl, hf inode⟩
  · exact ⟨_, rfl, Inode.Lasts.refl inode⟩

theorem lasts_write (absent : Int) (inodes : InodeTable) (ino offset : Int) (data : Bytes) :
    inodes.Lasts (write absent inodes ino offset data).2 := by
  rcases write_cases absent inodes ino offset data with ⟨inode, -, -, hwrite⟩ | ⟨-, hsame, -⟩
  · rw [hwrite]
    exact lasts_modify (fun inode => inode.lasts_splice offset data) inodes ino
  · rw [hsame]
    exact Lasts.refl inodes

theorem hierarchy_write {root next : Int} (h : Hierarchy inodes root next) (absent : Int)
    (ino offset : Int) (data : Bytes) :
    Hierarchy (write absent inodes ino offset data).2 root next := by
  rcases write_cases absent inodes ino offset data with ⟨-, -, -, hwrite⟩ | ⟨-, hsame, -⟩
  · rw [hwrite]
    exact h.modify (keepsPlace_splice offset data) ino
  · rw [hsame]
    exact h

end InodeTable

/-! ## Volumes -/

namespace Volume

def Settled : Volume → Prop
  | tmpfs fs => InodeTable.Hierarchy fs.inodes 1 fs.nextIno
  | ext2 fs => InodeTable.Hierarchy fs.inodes 2 fs.nextIno

structure Lasts (v v' : Volume) : Prop where
  root : Filesystem.rootIno v' = Filesystem.rootIno v
  inodes : v.inodes.Lasts v'.inodes

theorem Lasts.refl (v : Volume) : v.Lasts v :=
  ⟨rfl, InodeTable.Lasts.refl v.inodes⟩

theorem Lasts.trans {v v' v'' : Volume} (first : v.Lasts v') (second : v'.Lasts v'') :
    v.Lasts v'' :=
  ⟨second.root.trans first.root, first.inodes.trans second.inodes⟩

theorem Arranged.settled {v : Volume} (h : v.Arranged)
    (hext2 : ∀ fs, v = ext2 fs → fs.nextIno ≠ 2) : v.Settled := by
  cases v with
  | tmpfs fs => exact h
  | ext2 fs => exact h.resolve_left fun hfirst => hext2 fs rfl hfirst.1

def Safe (v v' : Volume) : Prop :=
  v.Settled → v'.Settled ∧ v.Lasts v'

theorem safe_create (v : Volume) (parentIno : Int) (name : Str) (itype : InodeType) :
    v.Safe (Filesystem.create v parentIno name itype).2 := by
  intro h
  cases v with
  | tmpfs fs =>
      change Settled (tmpfs (fs.create parentIno name itype).2) ∧
        Lasts (tmpfs fs) (tmpfs (fs.create parentIno name itype).2)
      cases herror : InodeTable.createError "tmpfs".toList fs.inodes parentIno name with
      | some error =>
          rw [TmpFS.create_of_error herror]
          exact ⟨h, Lasts.refl _⟩
      | none =>
          obtain ⟨parent, hparent, -, hname⟩ := InodeTable.createError_eq_none.mp herror
          rw [TmpFS.create_of_none herror]
          exact ⟨InodeTable.Hierarchy.enter h hparent hname rfl rfl, rfl,
            InodeTable.lasts_enter hparent hname (InodeTable.Hierarchy.fresh h)⟩
  | ext2 fs =>
      change Settled (ext2 (fs.create parentIno name itype).2) ∧
        Lasts (ext2 fs) (ext2 (fs.create parentIno name itype).2)
      cases herror : InodeTable.createError "ext2".toList fs.inodes parentIno name with
      | some error =>
          rw [Ext2FS.create_of_error herror]
          exact ⟨h, Lasts.refl _⟩
      | none =>
          obtain ⟨parent, hparent, -, hname⟩ := InodeTable.createError_eq_none.mp herror
          rw [Ext2FS.create_of_none herror]
          exact ⟨InodeTable.Hierarchy.enter h hparent hname rfl rfl, rfl,
            InodeTable.lasts_enter hparent hname (InodeTable.Hierarchy.fresh h)⟩

theorem safe_write (v : Volume) (ino offset : Int) (data : Bytes) :
    v.Safe (Filesystem.write v ino offset data).2 := by
  intro h
  cases v with
  | tmpfs fs =>
      exact ⟨InodeTable.hierarchy_write h (-2) ino offset data, rfl,
        InodeTable.lasts_write (-2) fs.inodes ino offset data⟩
  | ext2 fs =>
      exact ⟨InodeTable.hierarchy_write h (-22) ino offset data, rfl,
        InodeTable.lasts_write (-22) fs.inodes ino offset data⟩

theorem safe_update (fs : TmpFS) {f : Inode → Inode} (hplace : InodeTable.KeepsPlace f)
    (hf : ∀ inode : Inode, inode.Lasts (f inode)) (ino : Int) :
    Safe (tmpfs fs) (tmpfs (fs.update ino f)) := fun h =>
  ⟨InodeTable.Hierarchy.modify h hplace ino, rfl, InodeTable.lasts_modify hf fs.inodes ino⟩

theorem lasts_size (size : Int) (inode : Inode) : inode.Lasts { inode with size := size } :=
  ⟨rfl, rfl, Nat.le_refl _, List.prefix_refl _⟩

theorem safe_setSize (v : Volume) (ino size : Int) : v.Safe (Filesystem.setSize v ino size) := by
  cases v with
  | tmpfs fs => exact safe_update fs (keepsPlace_size size) (lasts_size size) ino
  | ext2 fs =>
      exact fun h => ⟨InodeTable.Hierarchy.modify h (keepsPlace_size size) ino, rfl,
        InodeTable.lasts_modify (lasts_size size) fs.inodes ino⟩

theorem safe_createWith (fs : TmpFS) (parentIno : Int) (name : Str) (itype : InodeType)
    {f : Inode → Inode} (hplace : InodeTable.KeepsPlace f)
    (hf : ∀ inode : Inode, inode.Lasts (f inode)) :
    Safe (tmpfs fs) (tmpfs (fs.createWith parentIno name itype f).2) := by
  intro h
  apply TmpFS.createWith_keeps (P := fun fs' => Settled (tmpfs fs') ∧ Lasts (tmpfs fs) (tmpfs fs'))
  · exact safe_create (tmpfs fs) parentIno name itype h
  · intro fs' ino hcreated
    exact (safe_update fs' hplace hf ino hcreated.1).imp_right hcreated.2.trans

theorem safe_step (v : Volume) (op : Op) : v.Safe (v.step op) := by
  cases op with
  | create parentIno name itype => exact safe_create v parentIno name itype
  | mkdir parentIno name =>
      cases v with
      | tmpfs fs => exact safe_create (tmpfs fs) parentIno name .dir
      | ext2 fs => exact safe_create (ext2 fs) parentIno name .dir
  | write ino offset data => exact safe_write v ino offset data
  | symlink parentIno name target =>
      cases v with
      | tmpfs fs =>
          apply safe_createWith fs parentIno name .symlink
          · exact ⟨fun _ => rfl, fun _ => rfl⟩
          · exact fun inode => ⟨rfl, rfl, Nat.le_refl _, List.prefix_refl _⟩
      | ext2 fs => exact fun h => ⟨h, Lasts.refl _⟩
  | mknod parentIno name major minor itype =>
      cases v with
      | tmpfs fs =>
          apply safe_createWith fs parentIno name itype
          · exact ⟨fun _ => rfl, fun _ => rfl⟩
          · exact fun inode => ⟨rfl, rfl, Nat.le_refl _, List.prefix_refl _⟩
      | ext2 fs => exact fun h => ⟨h, Lasts.refl _⟩

theorem lookup_eq (v : Volume) (ino : Int) : Filesystem.lookup v ino = v.inodes.get? ino := by
  cases v with
  | tmpfs fs => rfl
  | ext2 fs => rfl

theorem readdir_eq (v : Volume) (ino : Int) : Filesystem.readdir v ino = v.inodes.readdir ino := by
  cases v with
  | tmpfs fs => rfl
  | ext2 fs => rfl

theorem keeps_lasts (base : Volume) :
    Filesystem.Keeps fun v : Volume => v.Settled ∧ base.Lasts v where
  create h parentIno name itype :=
    (safe_create _ parentIno name itype h.1).imp_right h.2.trans
  mkdir h parentIno name := (safe_step _ (.mkdir parentIno name) h.1).imp_right h.2.trans
  write h ino offset data := (safe_write _ ino offset data h.1).imp_right h.2.trans
  setSize h ino size := (safe_setSize _ ino size h.1).imp_right h.2.trans

end Volume

end ComputeKernel.Fs
