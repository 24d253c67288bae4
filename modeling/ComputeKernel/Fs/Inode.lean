import ComputeKernel.Base
import ComputeKernel.Lib.Dict
import ComputeKernel.Lib.Slice
import ComputeKernel.Lib.Tree

/-!
# Inodes, inode tables, and the filesystem interface

Both filesystem drivers keep their inodes in one table keyed by inode number and
perform the same steps on it, so these steps are defined here once; each driver
supplies its tag and its error numbers.
-/

namespace ComputeKernel.Fs

open Lib

inductive InodeType
  | file
  | dir
  | symlink
  | block
  | char
  | fifo
  | socket
  deriving DecidableEq, Repr

structure Inode where
  ino : Int
  itype : InodeType := .file
  mode : Int := 0o644
  uid : Int := 0
  gid : Int := 0
  size : Int := 0
  nlink : Int := 1
  data : Bytes := []
  children : Dict Str Int := Dict.empty
  linkTarget : Str := []
  major : Int := 0
  minor : Int := 0
  deriving DecidableEq

inductive FsError
  | valueError (message : Str)
  | fileExistsError (message : Str)
  deriving DecidableEq, Repr

/-- Replace bytes from `offset` on by `data`; a gap behind the old end is filled
with zero bytes. -/
def spliceAt (old : Bytes) (offset : Int) (data : Bytes) : Bytes :=
  let old :=
    if offset > old.length then old ++ List.replicate (offset - old.length).toNat 0
    else old
  sliceTo old offset ++ data ++ sliceFrom old (offset + data.length)

theorem spliceAt_zero (old data : Bytes) :
    spliceAt old 0 data = data ++ old.drop data.length := by
  have hgap : ¬ (0 : Int) > old.length := by omega
  rw [spliceAt, if_neg hgap, sliceTo_of_nonneg old (Int.le_refl 0),
    sliceFrom_of_nonneg old (by omega)]
  simp

namespace Inode

def addEntry (inode : Inode) (name : Str) (ino : Int) : Inode :=
  { inode with children := inode.children.set name ino }

def splice (inode : Inode) (offset : Int) (data : Bytes) : Inode :=
  let data := spliceAt inode.data offset data
  { inode with data := data, size := data.length }

@[simp] theorem addEntry_children (inode : Inode) (name : Str) (ino : Int) :
    (inode.addEntry name ino).children = inode.children.set name ino := rfl

@[simp] theorem addEntry_data (inode : Inode) (name : Str) (ino : Int) :
    (inode.addEntry name ino).data = inode.data := rfl

@[simp] theorem addEntry_size (inode : Inode) (name : Str) (ino : Int) :
    (inode.addEntry name ino).size = inode.size := rfl

@[simp] theorem splice_data (inode : Inode) (offset : Int) (data : Bytes) :
    (inode.splice offset data).data = spliceAt inode.data offset data := rfl

@[simp] theorem splice_size (inode : Inode) (offset : Int) (data : Bytes) :
    (inode.splice offset data).size = (inode.splice offset data).data.length := rfl

end Inode

abbrev InodeTable := Dict Int Inode

namespace InodeTable

def lookupName (inodes : InodeTable) (parentIno : Int) (name : Str) : Option Inode :=
  match inodes.get? parentIno with
  | none => none
  | some parent =>
      if parent.itype ≠ .dir then none
      else
        match parent.children.get? name with
        | none => none
        | some childIno => inodes.get? childIno

/-- The checks that precede every creation; `tag` names the driver in the message. -/
def createError (tag : Str) (inodes : InodeTable) (parentIno : Int) (name : Str) :
    Option FsError :=
  match inodes.get? parentIno with
  | none => some (notADir parentIno)
  | some parent =>
      if parent.itype ≠ .dir then some (notADir parentIno)
      else if name ∈ parent.children then
        some (.fileExistsError
          (tag ++ ".create: '".toList ++ name ++ "' already exists".toList))
      else none
where
  notADir (parentIno : Int) : FsError :=
    .valueError (tag ++ ".create: parent ".toList ++ (toString parentIno).toList ++
      " not a dir".toList)

/-- Enter `child` in the table, then its name in the directory object that was
looked up before.  A directory whose number went to the child has left the table,
and the new name is lost with it. -/
def enter (inodes : InodeTable) (parentIno : Int) (name : Str) (child : Inode) :
    InodeTable :=
  let inodes := inodes.set child.ino child
  if child.ino = parentIno then inodes
  else inodes.modify parentIno fun parent => parent.addEntry name child.ino

def read (inodes : InodeTable) (ino offset size : Int) : Bytes :=
  match inodes.get? ino with
  | none => []
  | some inode =>
      if inode.itype ≠ .file then [] else slice inode.data offset (offset + size)

/-- Write to a regular file; `absent` is the driver's error for a missing inode. -/
def write (absent : Int) (inodes : InodeTable) (ino offset : Int) (data : Bytes) :
    Int × InodeTable :=
  match inodes.get? ino with
  | none => (absent, inodes)
  | some inode =>
      if inode.itype ≠ .file then (-22, inodes)
      else (data.length, inodes.set ino (inode.splice offset data))

def readdir (inodes : InodeTable) (ino : Int) : List (Str × Int) :=
  match inodes.get? ino with
  | none => []
  | some inode =>
      if inode.itype ≠ .dir then []
      else (".".toList, ino) :: ("..".toList, ino) :: inode.children.entries

/-- `Entry inodes d name b`: directory object `d` lists `name` as inode `b`. -/
def Entry (inodes : InodeTable) (d : Int) (name : Str) (b : Int) : Prop :=
  ∃ inode, inodes.get? d = some inode ∧ inode.children.get? name = some b

theorem createError_eq_none {tag : Str} {inodes : InodeTable} {parentIno : Int}
    {name : Str} :
    createError tag inodes parentIno name = none ↔
      ∃ parent, inodes.get? parentIno = some parent ∧ parent.itype = .dir ∧
        parent.children.get? name = none := by
  unfold createError
  cases inodes.get? parentIno with
  | none => simp
  | some parent =>
      by_cases hdir : parent.itype = .dir
      · by_cases hname : name ∈ parent.children
        · simp [hdir, hname, Dict.get?_eq_none]
        · simp [hdir, hname, Dict.get?_eq_none]
      · simp [hdir]

theorem lookupName_eq_some {inodes : InodeTable} {parentIno : Int} {name : Str}
    {child : Inode} :
    lookupName inodes parentIno name = some child ↔
      ∃ parent ino, inodes.get? parentIno = some parent ∧ parent.itype = .dir ∧
        parent.children.get? name = some ino ∧ inodes.get? ino = some child := by
  unfold lookupName
  cases inodes.get? parentIno with
  | none => simp
  | some parent =>
      by_cases hdir : parent.itype = .dir
      · cases hname : parent.children.get? name with
        | none => simp [hdir, hname]
        | some ino => simp [hdir, hname]
      · simp [hdir]

theorem write_cases (absent : Int) (inodes : InodeTable) (ino offset : Int)
    (data : Bytes) :
    (∃ inode, inodes.get? ino = some inode ∧ inode.itype = .file ∧
      write absent inodes ino offset data =
        ((data.length : Int), inodes.modify ino fun inode => inode.splice offset data)) ∨
    ((∀ inode, inodes.get? ino = some inode → inode.itype ≠ .file) ∧
      (write absent inodes ino offset data).2 = inodes ∧
      ((write absent inodes ino offset data).1 = absent ∨
        (write absent inodes ino offset data).1 = -22)) := by
  unfold write
  cases hget : inodes.get? ino with
  | none => exact Or.inr ⟨by simp, rfl, Or.inl rfl⟩
  | some inode =>
      by_cases hfile : inode.itype = .file
      · exact Or.inl ⟨inode, rfl, hfile, by simp [hfile, Dict.modify_of_get? _ hget]⟩
      · exact Or.inr (by simp [hfile])

/-! ## Directory entries -/

theorem get?_enter {inodes : InodeTable} {parentIno : Int} {child parent : Inode}
    (hparent : inodes.get? parentIno = some parent) (hfresh : child.ino ∉ inodes)
    (name : Str) (ino : Int) :
    (enter inodes parentIno name child).get? ino =
      if ino = child.ino then some child
      else if ino = parentIno then some (parent.addEntry name child.ino)
      else inodes.get? ino := by
  have hne : child.ino ≠ parentIno := by
    rintro h
    exact hfresh (h ▸ Dict.mem_of_get? hparent)
  simp only [enter, if_neg hne, Dict.get?_modify, Dict.get?_set, if_neg (Ne.symm hne),
    hparent, Option.map_some]
  by_cases hchild : ino = child.ino
  · simp [hchild, hne]
  · simp [hchild]

theorem get?_enter_cases {inodes : InodeTable} {parentIno ino : Int}
    {child parent inode : Inode} {name : Str}
    (hparent : inodes.get? parentIno = some parent) (hfresh : child.ino ∉ inodes)
    (h : (enter inodes parentIno name child).get? ino = some inode) :
    (ino = child.ino ∧ inode = child) ∨
      (ino = parentIno ∧ inode = parent.addEntry name child.ino) ∨
      inodes.get? ino = some inode := by
  rw [get?_enter hparent hfresh] at h
  split at h
  · rename_i hino
    exact Or.inl ⟨hino, (Option.some.inj h).symm⟩
  · split at h
    · rename_i hino
      exact Or.inr (Or.inl ⟨hino, (Option.some.inj h).symm⟩)
    · exact Or.inr (Or.inr h)

theorem get?_enter_of_some {inodes : InodeTable} {parentIno ino : Int}
    {child parent inode : Inode} (name : Str)
    (hparent : inodes.get? parentIno = some parent) (hfresh : child.ino ∉ inodes)
    (h : inodes.get? ino = some inode) :
    ∃ inode', (enter inodes parentIno name child).get? ino = some inode' ∧
      inode'.itype = inode.itype ∧ inode'.data = inode.data := by
  have hne : ino ≠ child.ino := fun hino => hfresh (hino ▸ Dict.mem_of_get? h)
  rw [get?_enter hparent hfresh, if_neg hne]
  split
  · rename_i hino
    subst hino
    rw [hparent] at h
    cases h
    exact ⟨_, rfl, rfl, rfl⟩
  · exact ⟨inode, h, rfl, rfl⟩

theorem mem_enter {inodes : InodeTable} {parentIno : Int} {child : Inode} (name : Str)
    (ino : Int) : ino ∈ enter inodes parentIno name child ↔ ino ∈ inodes ∨ ino = child.ino := by
  unfold enter
  split <;> simp [or_comm]

theorem entry_enter {inodes : InodeTable} {parentIno : Int} {child parent : Inode}
    {name : Str} (hparent : inodes.get? parentIno = some parent)
    (hname : parent.children.get? name = none) (hfresh : child.ino ∉ inodes)
    (hempty : child.children = Dict.empty) :
    (enter inodes parentIno name child).Entry =
      Tree.addLeaf inodes.Entry parentIno name child.ino := by
  funext d l b
  apply propext
  simp only [Entry, Tree.addLeaf, get?_enter hparent hfresh]
  by_cases hchild : d = child.ino
  · -- the child lists nothing, and no directory had its number
    have hold : inodes.get? d = none := Dict.get?_eq_none.mpr (hchild ▸ hfresh)
    have hne : d ≠ parentIno := by
      rintro rfl
      simp [hparent] at hold
    simp only [← hchild] at *
    simp [hold, hempty, hne]
  · by_cases hd : d = parentIno
    · subst hd
      simp only [if_neg hchild, hparent, Option.some.injEq, exists_eq_left', if_true,
        Inode.addEntry_children, Dict.get?_set]
      by_cases hl : l = name
      · simp [hl, hname, eq_comm]
      · simp [hl]
    · simp [hchild, hd]

theorem rootedTree_enter {inodes : InodeTable} {root parentIno : Int} {child parent : Inode}
    {name : Str} (h : Tree.RootedTree inodes.Entry (· ∈ inodes) root Int.toNat)
    (hparent : inodes.get? parentIno = some parent) (hname : parent.children.get? name = none)
    (hfresh : child.ino ∉ inodes) (hempty : child.children = Dict.empty)
    (hrank : parentIno.toNat < child.ino.toNat) :
    Tree.RootedTree (enter inodes parentIno name child).Entry
      (· ∈ enter inodes parentIno name child) root Int.toNat := by
  have hfree : ∀ b, ¬ inodes.Entry parentIno name b := by
    rintro b ⟨inode, hinode, hentry⟩
    rw [hparent] at hinode
    cases hinode
    rw [hname] at hentry
    cases hentry
  have hnode : (fun b => b ∈ enter inodes parentIno name child) =
      fun b => b ∈ inodes ∨ b = child.ino :=
    funext fun b => propext (mem_enter name b)
  rw [entry_enter hparent hname hfresh hempty, hnode]
  exact h.addLeaf (Dict.mem_of_get? hparent) hfree hfresh hrank

theorem get?_modify_cases {inodes : InodeTable} {ino ino' : Int} {f : Inode → Inode}
    {inode : Inode} (h : (inodes.modify ino f).get? ino' = some inode) :
    ∃ old, inodes.get? ino' = some old ∧ (inode = old ∨ inode = f old) := by
  rw [Dict.get?_modify] at h
  split at h
  · rename_i hino
    subst hino
    obtain ⟨old, hold, rfl⟩ := Option.map_eq_some_iff.mp h
    exact ⟨old, hold, Or.inr rfl⟩
  · exact ⟨inode, h, Or.inl rfl⟩

theorem entry_modify {inodes : InodeTable} {ino : Int} {f : Inode → Inode}
    (hf : ∀ inode, (f inode).children = inode.children) :
    Entry (inodes.modify ino f) = inodes.Entry := by
  funext d l b
  apply propext
  simp only [Entry, Dict.get?_modify]
  by_cases hd : d = ino
  · subst hd
    cases hget : inodes.get? d with
    | none => simp
    | some inode => simp [hf]
  · simp [hd]

/-! ## Tables that are a tree -/

structure KeepsPlace (f : Inode → Inode) : Prop where
  ino : ∀ inode, (f inode).ino = inode.ino
  children : ∀ inode, (f inode).children = inode.children

theorem keepsPlace_splice (offset : Int) (data : Bytes) :
    KeepsPlace fun inode => inode.splice offset data where
  ino _ := rfl
  children _ := rfl

/-- Inodes are stored under their own numbers, all of them below `next`, and the
directories form a tree. -/
structure Hierarchy (inodes : InodeTable) (root next : Int) : Prop where
  keyed : ∀ {ino inode}, inodes.get? ino = some inode →
    inode.ino = ino ∧ 1 ≤ ino ∧ ino < next
  tree : Tree.RootedTree inodes.Entry (· ∈ inodes) root Int.toNat

structure RootOnly (inodes : InodeTable) (root : Int) : Prop where
  mem : root ∈ inodes
  only : ∀ {ino inode}, inodes.get? ino = some inode →
    ino = root ∧ inode.ino = root ∧ inode.children = Dict.empty

theorem RootOnly.hierarchy {inodes : InodeTable} {root next : Int} (h : RootOnly inodes root)
    (hpos : 1 ≤ root) (hnext : root < next) : Hierarchy inodes root next where
  keyed := by
    intro ino inode hget
    obtain ⟨hino, hself, -⟩ := h.only hget
    omega
  tree := by
    apply Tree.RootedTree.single
    · intro b
      constructor
      · intro hb
        obtain ⟨inode, hget⟩ := Dict.mem_iff_exists.mp hb
        exact (h.only hget).1
      · rintro rfl
        exact h.mem
    · rintro d name b ⟨inode, hget, hentry⟩
      rw [(h.only hget).2.2, Dict.get?_empty] at hentry
      cases hentry

theorem RootOnly.modify {inodes : InodeTable} {root : Int} (h : RootOnly inodes root)
    {f : Inode → Inode} (hf : KeepsPlace f) (ino : Int) :
    RootOnly (inodes.modify ino f) root where
  mem := Dict.mem_modify.mpr h.mem
  only := by
    intro other inode hget
    obtain ⟨old, hold, rfl | rfl⟩ := get?_modify_cases hget
    · exact h.only hold
    · rw [hf.ino, hf.children]
      exact h.only hold

namespace Hierarchy

variable {inodes : InodeTable} {root next : Int}

theorem fresh (h : Hierarchy inodes root next) : next ∉ inodes := by
  intro hmem
  obtain ⟨inode, hget⟩ := Dict.mem_iff_exists.mp hmem
  exact Int.lt_irrefl _ (h.keyed hget).2.2

theorem enter (h : Hierarchy inodes root next) {parentIno : Int} {parent child : Inode}
    {name : Str} (hparent : inodes.get? parentIno = some parent)
    (hname : parent.children.get? name = none) (hino : child.ino = next)
    (hempty : child.children = Dict.empty) :
    Hierarchy (inodes.enter parentIno name child) root (next + 1) := by
  have hfresh : child.ino ∉ inodes := hino ▸ h.fresh
  have hbound := h.keyed hparent
  constructor
  · intro ino inode hget
    rcases get?_enter_cases hparent hfresh hget with ⟨rfl, rfl⟩ | ⟨rfl, rfl⟩ | hold
    · omega
    · change parent.ino = ino ∧ _
      omega
    · have := h.keyed hold
      omega
  · exact rootedTree_enter h.tree hparent hname hfresh hempty (by omega)

theorem modify (h : Hierarchy inodes root next) {f : Inode → Inode} (hf : KeepsPlace f)
    (ino : Int) : Hierarchy (inodes.modify ino f) root next := by
  constructor
  · intro other inode hget
    obtain ⟨old, hold, rfl | rfl⟩ := get?_modify_cases hget
    · exact h.keyed hold
    · rw [hf.ino]
      exact h.keyed hold
  · have hnode : (fun b => b ∈ inodes.modify ino f) = fun b => b ∈ inodes :=
      funext fun b => propext Dict.mem_modify
    rw [entry_modify hf.children, hnode]
    exact h.tree

theorem entry_of_lookupName (h : Hierarchy inodes root next) {d : Int} {name : Str}
    {child : Inode} (hchild : inodes.lookupName d name = some child) :
    inodes.Entry d name child.ino := by
  obtain ⟨parent, ino, hparent, -, hentry, hget⟩ := lookupName_eq_some.mp hchild
  obtain rfl := (h.keyed hget).1
  exact ⟨parent, hparent, hentry⟩

end Hierarchy

end InodeTable

/-- The driver interface, with every method as a state transformer.  A method
that raises returns the state the driver has at that moment. -/
class Filesystem (F : Type) where
  fstype : F → Str
  rootIno : F → Int
  lookup : F → Int → Option Inode
  lookupName : F → Int → Str → Option Inode
  create : F → Int → Str → InodeType → Except FsError Inode × F
  mkdir : F → Int → Str → Except FsError Inode × F
  read : F → Int → Int → Int → Bytes
  write : F → Int → Int → Bytes → Int × F
  readdir : F → Int → List (Str × Int)
  /-- A caller's assignment to the `size` of an inode object it holds. -/
  setSize : F → Int → Int → F

end ComputeKernel.Fs
