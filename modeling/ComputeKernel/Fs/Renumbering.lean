import ComputeKernel.Fs.Ext2FS
import ComputeKernel.Fs.TmpFSTree

/-!
# The same files under other numbers

Two inode tables are twins when the second holds the inodes of the first under numbers that
are higher by some constant.  Calls keep tables twins, so the drivers differ in the numbers
only: an ext2 volume becomes the twin of a new tmpfs with the first directory made in it.
-/

namespace ComputeKernel.Fs

open Lib

structure Inode.Twin (shift : Int) (inode twin : Inode) : Prop where
  ino : twin.ino = inode.ino + shift
  itype : twin.itype = inode.itype
  size : twin.size = inode.size
  data : twin.data = inode.data
  children : twin.children = inode.children.mapValues (· + shift)

namespace Inode.Twin

variable {shift : Int} {inode twin : Inode}

theorem addEntry (h : Twin shift inode twin) (name : Str) (ino : Int) :
    Twin shift (inode.addEntry name ino) (twin.addEntry name (ino + shift)) where
  ino := h.ino
  itype := h.itype
  size := h.size
  data := h.data
  children := by
    rw [addEntry_children, addEntry_children, h.children, Dict.mapValues_set]

theorem splice (h : Twin shift inode twin) (offset : Int) (data : Bytes) :
    Twin shift (inode.splice offset data) (twin.splice offset data) where
  ino := h.ino
  itype := h.itype
  size := by
    rw [splice_size, splice_size, splice_data, splice_data, h.data]
  data := by
    rw [splice_data, splice_data, h.data]
  children := h.children

theorem setSize (h : Twin shift inode twin) (size : Int) :
    Twin shift { inode with size := size } { twin with size := size } where
  ino := h.ino
  itype := h.itype
  size := rfl
  data := h.data
  children := h.children

end Inode.Twin

namespace InodeTable

def Twin (shift : Int) (inodes twins : InodeTable) : Prop :=
  ∀ ino, Option.Rel (Inode.Twin shift) (inodes.get? ino) (twins.get? (ino + shift))

namespace Twin

variable {shift : Int} {inodes twins : InodeTable}

theorem cases (h : Twin shift inodes twins) (ino : Int) :
    (inodes.get? ino = none ∧ twins.get? (ino + shift) = none) ∨
      ∃ inode twin, inodes.get? ino = some inode ∧ twins.get? (ino + shift) = some twin ∧
        Inode.Twin shift inode twin := by
  have hino := h ino
  revert hino
  generalize inodes.get? ino = found
  generalize twins.get? (ino + shift) = found'
  intro hino
  cases hino with
  | none => exact Or.inl ⟨rfl, rfl⟩
  | some htwin => exact Or.inr ⟨_, _, rfl, rfl, htwin⟩

theorem set (h : Twin shift inodes twins) (ino : Int) {inode twin : Inode}
    (htwin : Inode.Twin shift inode twin) :
    Twin shift (inodes.set ino inode) (twins.set (ino + shift) twin) := by
  intro other
  rw [Dict.get?_set, Dict.get?_set]
  by_cases hsame : other = ino
  · rw [if_pos hsame, if_pos (congrArg (· + shift) hsame)]
    exact Option.Rel.some htwin
  · have hne : other + shift ≠ ino + shift := by omega
    rw [if_neg hsame, if_neg hne]
    exact h other

theorem modify (h : Twin shift inodes twins) (ino : Int) {f g : Inode → Inode}
    (hfg : ∀ inode twin, Inode.Twin shift inode twin → Inode.Twin shift (f inode) (g twin)) :
    Twin shift (inodes.modify ino f) (twins.modify (ino + shift) g) := by
  intro other
  rw [Dict.get?_modify_eq_map, Dict.get?_modify_eq_map]
  rcases h.cases other with ⟨hnone, hnone'⟩ | ⟨inode, twin, hget, hget', htwin⟩
  · rw [hnone, hnone']
    exact Option.Rel.none
  · rw [hget, hget']
    refine Option.Rel.some ?_
    dsimp only
    by_cases hsame : other = ino
    · rw [if_pos hsame, if_pos (congrArg (· + shift) hsame)]
      exact hfg inode twin htwin
    · have hne : other + shift ≠ ino + shift := by omega
      rw [if_neg hsame, if_neg hne]
      exact htwin

theorem enter (h : Twin shift inodes twins) (parentIno : Int) (name : Str) {child twin : Inode}
    (htwin : Inode.Twin shift child twin) :
    Twin shift (inodes.enter parentIno name child)
      (twins.enter (parentIno + shift) name twin) := by
  unfold InodeTable.enter
  rw [htwin.ino]
  have hset := h.set child.ino htwin
  by_cases hsame : child.ino = parentIno
  · rw [if_pos hsame, if_pos (congrArg (· + shift) hsame)]
    exact hset
  · have hne : child.ino + shift ≠ parentIno + shift := by omega
    rw [if_neg hsame, if_neg hne]
    exact hset.modify parentIno fun _ _ hinode => hinode.addEntry name child.ino

theorem lookupName (h : Twin shift inodes twins) (parentIno : Int) (name : Str) :
    Option.Rel (Inode.Twin shift) (inodes.lookupName parentIno name)
      (twins.lookupName (parentIno + shift) name) := by
  unfold InodeTable.lookupName
  rcases h.cases parentIno with ⟨hnone, hnone'⟩ | ⟨inode, twin, hget, hget', htwin⟩
  · rw [hnone, hnone']
    exact Option.Rel.none
  · rw [hget, hget']
    dsimp only
    rw [htwin.itype, htwin.children, Dict.get?_mapValues]
    split
    · exact Option.Rel.none
    · cases inode.children.get? name with
      | none => exact Option.Rel.none
      | some ino => exact h ino

theorem createError (h : Twin shift inodes twins) (tag tag' : Str) (parentIno : Int)
    (name : Str) :
    (InodeTable.createError tag inodes parentIno name = none ∧
      InodeTable.createError tag' twins (parentIno + shift) name = none) ∨
    ∃ error error', InodeTable.createError tag inodes parentIno name = some error ∧
      InodeTable.createError tag' twins (parentIno + shift) name = some error' ∧
      ∀ inode, inodes.get? parentIno = some inode → inode.itype = .dir →
        ∃ message message', error = .fileExistsError message ∧
          error' = .fileExistsError message' := by
  unfold InodeTable.createError
  rcases h.cases parentIno with ⟨hnone, hnone'⟩ | ⟨inode, twin, hget, hget', htwin⟩
  · rw [hnone, hnone']
    refine Or.inr ⟨_, _, rfl, rfl, fun inode hinode => ?_⟩
    cases hinode
  · rw [hget, hget']
    dsimp only
    rw [htwin.itype, htwin.children]
    simp only [Dict.mem_mapValues]
    by_cases hdir : inode.itype = .dir
    · rw [if_neg (not_not.mpr hdir), if_neg (not_not.mpr hdir)]
      by_cases hname : name ∈ inode.children
      · rw [if_pos hname, if_pos hname]
        exact Or.inr ⟨_, _, rfl, rfl, fun _ _ _ => ⟨_, _, rfl, rfl⟩⟩
      · rw [if_neg hname, if_neg hname]
        exact Or.inl ⟨rfl, rfl⟩
    · rw [if_pos hdir, if_pos hdir]
      refine Or.inr ⟨_, _, rfl, rfl, fun other hother hotherDir => ?_⟩
      cases hother
      exact (hdir hotherDir).elim

theorem read (h : Twin shift inodes twins) (ino offset size : Int) :
    twins.read (ino + shift) offset size = inodes.read ino offset size := by
  unfold InodeTable.read
  rcases h.cases ino with ⟨hnone, hnone'⟩ | ⟨inode, twin, hget, hget', htwin⟩
  · rw [hnone, hnone']
  · rw [hget, hget']
    dsimp only
    rw [htwin.itype, htwin.data]

theorem write (h : Twin shift inodes twins) (absent absent' : Int) {ino : Int}
    (hmem : ino ∈ inodes) (offset : Int) (data : Bytes) :
    (InodeTable.write absent' twins (ino + shift) offset data).1 =
        (InodeTable.write absent inodes ino offset data).1 ∧
      Twin shift (InodeTable.write absent inodes ino offset data).2
        (InodeTable.write absent' twins (ino + shift) offset data).2 := by
  unfold InodeTable.write
  rcases h.cases ino with ⟨hnone, -⟩ | ⟨inode, twin, hget, hget', htwin⟩
  · exact (Dict.get?_eq_none.mp hnone hmem).elim
  · rw [hget, hget']
    dsimp only
    rw [htwin.itype]
    split
    · exact ⟨rfl, h⟩
    · exact ⟨rfl, h.set ino (htwin.splice offset data)⟩

theorem readdir (h : Twin shift inodes twins) (ino : Int) :
    (twins.readdir (ino + shift)).map Prod.fst = (inodes.readdir ino).map Prod.fst := by
  unfold InodeTable.readdir
  rcases h.cases ino with ⟨hnone, hnone'⟩ | ⟨inode, twin, hget, hget', htwin⟩
  · rw [hnone, hnone']
  · rw [hget, hget']
    dsimp only
    rw [htwin.itype]
    split
    · rfl
    · rw [List.map_cons, List.map_cons, List.map_cons, List.map_cons, htwin.children]
      exact congrArg _ (congrArg _ (Dict.keys_mapValues inode.children _))

end Twin

end InodeTable

/-! ## The two drivers -/

/-- The ext2 volume holds what the tmpfs holds, under numbers that are higher by one. -/
structure Ext2FS.Twins (fs : TmpFS) (twin : Ext2FS) : Prop where
  inodes : InodeTable.Twin 1 fs.inodes twin.inodes
  nextIno : twin.nextIno = fs.nextIno + 1

namespace Ext2FS

/-- The first directory made in a volume takes the place of the root, and loses its name. -/
theorem twins_first_mkdir (volumeName name : Str) :
    Twins TmpFS.init ((init volumeName).mkdir 2 name).2 where
  inodes := by
    intro ino
    have hinodes : ((init volumeName).mkdir 2 name).2.inodes.get? (ino + 1) =
        if ino = 1 then some { ino := 2, itype := .dir } else none := by
      have hcreate : InodeTable.createError "ext2".toList (init volumeName).inodes 2 name =
          none := rfl
      rw [mkdir, create_of_none hcreate]
      change ((Dict.empty.set 2 _).set 2 _).get? (ino + 1) = _
      rw [Dict.get?_set, Dict.get?_set, Dict.get?_empty]
      by_cases hroot : ino = 1
      · rw [if_pos hroot, if_pos (by omega)]
        rfl
      · rw [if_neg hroot, if_neg (by omega), if_neg (by omega)]
    rw [hinodes, TmpFS.get?_init]
    split
    · exact Option.Rel.some ⟨rfl, rfl, rfl, rfl, rfl⟩
    · exact Option.Rel.none
  nextIno := rfl

namespace Twins

variable {fs : TmpFS} {twin : Ext2FS}

theorem newInode (h : Twins fs twin) (itype : InodeType) :
    Inode.Twin 1 (fs.newInode itype 0o644).1 { ino := twin.nextIno, itype := itype } where
  ino := h.nextIno
  itype := rfl
  size := rfl
  data := rfl
  children := rfl

theorem create (h : Twins fs twin) (parentIno : Int) (name : Str) (itype : InodeType) :
    (∃ child child' fs' twin', fs.create parentIno name itype = (.ok child, fs') ∧
      twin.create (parentIno + 1) name itype = (.ok child', twin') ∧
      Inode.Twin 1 child child' ∧ child.ino ∈ fs'.inodes ∧ Twins fs' twin') ∨
    ∃ error error', fs.create parentIno name itype = (.error error, fs) ∧
      twin.create (parentIno + 1) name itype = (.error error', twin) ∧
      ∀ inode, fs.inodes.get? parentIno = some inode → inode.itype = .dir →
        ∃ message message', error = .fileExistsError message ∧
          error' = .fileExistsError message' := by
  rcases h.inodes.createError "tmpfs".toList "ext2".toList parentIno name with
    ⟨hok, hok'⟩ | ⟨error, error', herror, herror', hdir⟩
  · left
    have hchild := h.newInode itype
    refine ⟨_, _, _, _, TmpFS.create_of_none hok itype, create_of_none hok' itype, hchild,
      (InodeTable.mem_enter name _).mpr (Or.inr rfl), ?_, ?_⟩
    · exact h.inodes.enter parentIno name hchild
    · exact congrArg (· + 1) h.nextIno
  · right
    exact ⟨error, error', TmpFS.create_of_error herror itype, create_of_error herror' itype,
      hdir⟩

theorem write (h : Twins fs twin) {ino : Int} (hmem : ino ∈ fs.inodes) (offset : Int)
    (data : Bytes) :
    (twin.write (ino + 1) offset data).1 = (fs.write ino offset data).1 ∧
      Twins (fs.write ino offset data).2 (twin.write (ino + 1) offset data).2 := by
  obtain ⟨hcount, htables⟩ := h.inodes.write (-2) (-22) hmem offset data
  exact ⟨hcount, htables, h.nextIno⟩

theorem setSize (h : Twins fs twin) (ino size : Int) :
    Twins (Filesystem.setSize fs ino size) (Filesystem.setSize twin (ino + 1) size) where
  inodes := h.inodes.modify ino fun _ _ hinode => hinode.setSize size
  nextIno := h.nextIno

end Twins

end Ext2FS

end ComputeKernel.Fs
