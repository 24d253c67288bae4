import ComputeKernel.Fs.TmpFS
import ComputeKernel.Lib.Run

/-!
# tmpfs is a rooted tree

The invariant below holds of a new tmpfs and is kept by every operation, also by
one that raises.  Its tree part comes from hanging a new leaf under a directory,
because the counter is larger than every number given out before.
-/

namespace ComputeKernel.Fs.TmpFS

open Lib Lib.Tree

structure Inv (fs : TmpFS) : Prop where
  keyed : ∀ {ino inode}, fs.inodes.get? ino = some inode →
    inode.ino = ino ∧ 1 ≤ ino ∧ ino < fs.nextIno
  root : ∃ inode, fs.inodes.get? 1 = some inode ∧ inode.itype = .dir
  childless : ∀ {ino inode}, fs.inodes.get? ino = some inode → inode.itype ≠ .dir →
    inode.children = Dict.empty
  size : ∀ {ino inode}, fs.inodes.get? ino = some inode → inode.size = inode.data.length
  tree : RootedTree fs.inodes.Entry (· ∈ fs.inodes) 1 Int.toNat

/-- Assignments that leave an inode's number, type and listing alone, and its size
in step with its data. -/
structure KeepsShape (f : Inode → Inode) : Prop where
  ino : ∀ inode, (f inode).ino = inode.ino
  itype : ∀ inode, (f inode).itype = inode.itype
  children : ∀ inode, (f inode).children = inode.children
  size : ∀ inode, inode.size = inode.data.length → (f inode).size = (f inode).data.length

theorem keepsShape_splice (offset : Int) (data : Bytes) :
    KeepsShape fun inode => inode.splice offset data where
  ino _ := rfl
  itype _ := rfl
  children _ := rfl
  size _ _ := rfl

theorem keepsShape_symlink (target : Str) :
    KeepsShape fun sl => { sl with linkTarget := target } where
  ino _ := rfl
  itype _ := rfl
  children _ := rfl
  size _ hsize := hsize

theorem keepsShape_mknod (major minor : Int) :
    KeepsShape fun dev => { dev with major := major, minor := minor } where
  ino _ := rfl
  itype _ := rfl
  children _ := rfl
  size _ hsize := hsize

theorem inv_init : Inv init where
  keyed := hierarchy_init.keyed
  root := ⟨{ ino := 1, itype := .dir, mode := 0o755 }, by simp [get?_init]⟩
  childless h _ := (rootOnly_init.only h).2.2
  size := by
    intro ino inode h
    rw [get?_init] at h
    split at h
    · cases h
      rfl
    · cases h
  tree := hierarchy_init.tree

namespace Inv

variable {fs : TmpFS}

theorem hierarchy (h : Inv fs) : InodeTable.Hierarchy fs.inodes 1 fs.nextIno where
  keyed := h.keyed
  tree := h.tree

theorem lt_nextIno (h : Inv fs) {ino : Int} (hino : ino ∈ fs.inodes) :
    1 ≤ ino ∧ ino < fs.nextIno := by
  obtain ⟨inode, hget⟩ := Dict.mem_iff_exists.mp hino
  exact (h.keyed hget).2

theorem fresh (h : Inv fs) : fs.nextIno ∉ fs.inodes := h.hierarchy.fresh

theorem create (h : Inv fs) (parentIno : Int) (name : Str) (itype : InodeType) :
    Inv (fs.create parentIno name itype).2 := by
  cases herror : InodeTable.createError "tmpfs".toList fs.inodes parentIno name with
  | some error =>
      rw [create_of_error herror]
      exact h
  | none =>
      rw [create_of_none herror]
      obtain ⟨parent, hparent, hdir, hname⟩ := InodeTable.createError_eq_none.mp herror
      let child := (fs.newInode itype 0o644).1
      have hfresh : child.ino ∉ fs.inodes := h.fresh
      have hnew : InodeTable.Hierarchy (fs.inodes.enter parentIno name child) 1
          (fs.nextIno + 1) := h.hierarchy.enter hparent hname rfl rfl
      refine
        { keyed := hnew.keyed, root := ?_, childless := ?_, size := ?_, tree := hnew.tree }
      · obtain ⟨root, hroot, hrootDir⟩ := h.root
        obtain ⟨root', hroot', htype, -⟩ :=
          InodeTable.get?_enter_of_some name hparent hfresh hroot
        exact ⟨root', hroot', htype.trans hrootDir⟩
      · intro ino inode hget hnotDir
        rcases InodeTable.get?_enter_cases hparent hfresh hget with ⟨-, rfl⟩ | ⟨-, rfl⟩ | hold
        · rfl
        · exact (hnotDir hdir).elim
        · exact h.childless hold hnotDir
      · intro ino inode hget
        rcases InodeTable.get?_enter_cases hparent hfresh hget with ⟨-, rfl⟩ | ⟨-, rfl⟩ | hold
        · rfl
        · simpa using h.size hparent
        · exact h.size hold

theorem update (h : Inv fs) {f : Inode → Inode} (hf : KeepsShape f) (ino : Int) :
    Inv (fs.update ino f) := by
  have hnew := h.hierarchy.modify ⟨hf.ino, hf.children⟩ ino
  refine
    { keyed := hnew.keyed, root := ?_, childless := ?_, size := ?_, tree := hnew.tree }
  · obtain ⟨root, hroot, hdir⟩ := h.root
    by_cases hino : (1 : Int) = ino
    · subst hino
      exact ⟨f root, by simp [TmpFS.update, Dict.get?_modify, hroot], by rw [hf.itype, hdir]⟩
    · exact ⟨root, by simp [TmpFS.update, Dict.get?_modify, hino, hroot], hdir⟩
  · intro k inode hget hnotDir
    obtain ⟨old, hold, rfl | rfl⟩ := InodeTable.get?_modify_cases hget
    · exact h.childless hold hnotDir
    · rw [hf.children]
      exact h.childless hold (by rwa [hf.itype] at hnotDir)
  · intro k inode hget
    obtain ⟨old, hold, rfl | rfl⟩ := InodeTable.get?_modify_cases hget
    · exact h.size hold
    · exact hf.size old (h.size hold)

theorem createWith (h : Inv fs) {f : Inode → Inode} (hf : KeepsShape f)
    (parentIno : Int) (name : Str) (itype : InodeType) :
    Inv (fs.createWith parentIno name itype f).2 :=
  createWith_keeps (h.create parentIno name itype) fun _ ino hcreated => hcreated.update hf ino

theorem write (h : Inv fs) (ino offset : Int) (data : Bytes) :
    Inv (fs.write ino offset data).2 := by
  rcases InodeTable.write_cases (-2) fs.inodes ino offset data with
    ⟨inode, -, -, hwrite⟩ | ⟨-, hwrite, -⟩
  · simp only [TmpFS.write, hwrite]
    exact h.update (keepsShape_splice offset data) ino
  · simp only [TmpFS.write, hwrite]
    exact h

theorem lookupName_eq_some (h : Inv fs) {d : Int} {name : Str} {child : Inode} :
    fs.lookupName d name = some child ↔
      fs.inodes.Entry d name child.ino ∧ fs.inodes.get? child.ino = some child := by
  rw [TmpFS.lookupName, InodeTable.lookupName_eq_some]
  constructor
  · rintro ⟨parent, ino, hparent, -, hentry, hchild⟩
    obtain rfl := (h.keyed hchild).1
    exact ⟨⟨parent, hparent, hentry⟩, hchild⟩
  · rintro ⟨⟨parent, hparent, hentry⟩, hchild⟩
    refine ⟨parent, child.ino, hparent, ?_, hentry, hchild⟩
    by_contra hdir
    rw [h.childless hparent hdir] at hentry
    cases hentry

end Inv

/-- `fs'` is `fs` with one new inode, listed as `name` in directory `d`. -/
structure Grown (fs fs' : TmpFS) (d : Int) (name : Str) (inode : Inode) : Prop where
  inv : Inv fs'
  fresh : inode.ino ∉ fs.inodes
  entry : fs'.inodes.Entry = addLeaf fs.inodes.Entry d name inode.ino
  lookup : fs'.lookup inode.ino = some inode

theorem Inv.grown_create {fs : TmpFS} (h : Inv fs) {d : Int} {name : Str}
    (hok : InodeTable.createError "tmpfs".toList fs.inodes d name = none)
    (itype : InodeType) :
    fs.create d name itype = (.ok (fs.newInode itype 0o644).1, (fs.create d name itype).2) ∧
      Grown fs (fs.create d name itype).2 d name (fs.newInode itype 0o644).1 := by
  obtain ⟨parent, hparent, -, hname⟩ := InodeTable.createError_eq_none.mp hok
  have hinv := h.create d name itype
  have hfresh : (fs.newInode itype 0o644).1.ino ∉ fs.inodes := h.fresh
  rw [create_of_none hok] at hinv ⊢
  refine ⟨rfl, hinv, hfresh, InodeTable.entry_enter hparent hname hfresh rfl, ?_⟩
  simp only [TmpFS.lookup, InodeTable.get?_enter hparent hfresh, if_true]

theorem Grown.update {fs fs' : TmpFS} {d : Int} {name : Str} {inode : Inode}
    (h : Grown fs fs' d name inode) {f : Inode → Inode} (hf : KeepsShape f) :
    Grown fs (fs'.update inode.ino f) d name (f inode) where
  inv := h.inv.update hf inode.ino
  fresh := by
    rw [hf.ino]
    exact h.fresh
  entry := by
    rw [hf.ino, ← h.entry]
    exact InodeTable.entry_modify hf.children
  lookup := by
    have hget : fs'.inodes.get? inode.ino = some inode := h.lookup
    simp [TmpFS.lookup, TmpFS.update, hf.ino, Dict.get?_modify, hget]

/-! ## Runs -/

inductive Op
  | create (parentIno : Int) (name : Str) (itype : InodeType)
  | mkdir (parentIno : Int) (name : Str)
  | symlink (parentIno : Int) (name target : Str)
  | mknod (parentIno : Int) (name : Str) (major minor : Int) (itype : InodeType)
  | write (ino : Int) (offset : Nat) (data : Bytes)

def step (fs : TmpFS) : Op → TmpFS
  | .create parentIno name itype => (fs.create parentIno name itype).2
  | .mkdir parentIno name => (fs.mkdir parentIno name).2
  | .symlink parentIno name target => (fs.symlink parentIno name target).2
  | .mknod parentIno name major minor itype => (fs.mknod parentIno name major minor itype).2
  | .write ino offset data => (fs.write ino offset data).2

theorem inv_step (fs : TmpFS) (op : Op) (h : Inv fs) : Inv (fs.step op) := by
  cases op with
  | create parentIno name itype => exact h.create parentIno name itype
  | mkdir parentIno name => exact h.create parentIno name .dir
  | symlink parentIno name target =>
      exact h.createWith (keepsShape_symlink target) parentIno name .symlink
  | mknod parentIno name major minor itype =>
      exact h.createWith (keepsShape_mknod major minor) parentIno name itype
  | write ino offset data => exact h.write ino offset data

theorem inv_run (ops : List Op) : Inv (Run.run step init ops) :=
  Run.run_invariant inv_step inv_init ops

theorem run_rootedTree (ops : List Op) :
    let fs := Run.run step init ops
    (∀ ino inode, fs.inodes.get? ino = some inode →
      inode.ino = ino ∧ 1 ≤ ino ∧ ino < fs.nextIno) ∧
    (∃ inode, fs.inodes.get? 1 = some inode ∧ inode.itype = .dir) ∧
    (∀ ino inode, fs.inodes.get? ino = some inode → inode.children.keys ≠ [] →
      inode.itype = .dir) ∧
    (∀ d name b, fs.inodes.Entry d name b → b ∈ fs.inodes ∧ d < b) ∧
    (∀ b ∈ fs.inodes, b ≠ 1 → ∃! entry : Int × Str, fs.inodes.Entry entry.1 entry.2 b) ∧
    (∀ b ∈ fs.inodes, ∃! path, Walk fs.inodes.Entry 1 path b) ∧
    (∀ a path, Walk fs.inodes.Entry a path a → path = []) ∧
    (∀ ino inode, fs.inodes.get? ino = some inode → inode.size = inode.data.length) := by
  intro fs
  have h : Inv fs := inv_run ops
  refine ⟨fun _ _ => h.keyed, h.root, ?_, ?_, ?_, fun b => h.tree.existsUnique_walk,
    fun a path => h.tree.acyclic, fun _ _ => h.size⟩
  · intro ino inode hget hchildren
    by_contra hdir
    rw [h.childless hget hdir] at hchildren
    exact hchildren rfl
  · intro d name b hentry
    have hrank := h.tree.rank_lt hentry
    have hd := h.lt_nextIno (h.tree.source hentry)
    exact ⟨h.tree.target hentry, by omega⟩
  · intro b hb hne
    obtain ⟨d, name, hentry⟩ := h.tree.entry hb hne
    refine ⟨(d, name), hentry, ?_⟩
    rintro ⟨d', name'⟩ hentry'
    obtain ⟨rfl, rfl⟩ := h.tree.entry_unique hentry' hentry
    rfl

end ComputeKernel.Fs.TmpFS
