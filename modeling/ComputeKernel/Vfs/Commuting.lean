import ComputeKernel.Lib.NameTree
import ComputeKernel.Vfs.Creation
import ComputeKernel.Vfs.Resolution

/-!
# Creations at independent paths commute

Seen through its paths, with types and contents but without inode numbers, a tmpfs is a
tree of names, and a creation attaches one node to it.  Attachments at independent paths
commute, so the creations do, up to the numbers.
-/

namespace ComputeKernel.Vfs

open Lib Lib.Path Lib.Tree Fs

abbrev Node := InodeType × Bytes

def Node.IsDir (node : Node) : Prop :=
  node.1 = .dir

namespace VFS

def nodeAt (fs : TmpFS) (ino : Int) : Option Node :=
  (fs.inodes.get? ino).map fun inode => (inode.itype, inode.data)

def tree (vfs : VFS Unit TmpFS) : NameTree Str Node := fun labels =>
  (walk (vfs.filesystems ()) 1 labels).bind (nodeAt (vfs.filesystems ()))

def visible (vfs : VFS Unit TmpFS) (path : Str) : Option (Option Node) :=
  (vfs.resolve? path).map fun (_, ino) => nodeAt (vfs.filesystems ()) ino

def KeepsNodes (fs fs' : TmpFS) : Prop :=
  ∀ ino ∈ fs.inodes, nodeAt fs' ino = nodeAt fs ino

/-- The creation attaches `node` to the tree, and its result says whether it could. -/
structure AttachesNode (vfs : VFS Unit TmpFS) (labels : List Str) (node : Node)
    (result : Bool × VFS Unit TmpFS) : Prop where
  returns : result.1 = true ↔ NameTree.CanAttach Node.IsDir vfs.tree labels
  tree : result.2.tree = NameTree.attach Node.IsDir vfs.tree labels node

/-! ## The tree of a rooted VFS -/

namespace Rooted

variable {vfs : VFS Unit TmpFS}

theorem nodeAt_isSome (h : Rooted vfs) {labels : List Str} {ino : Int}
    (hwalk : Walk (vfs.filesystems ()).inodes.Entry 1 labels ino) :
    ∃ inode, (vfs.filesystems ()).inodes.get? ino = some inode :=
  Dict.mem_iff_exists.mp (h.inv.tree.walk_node hwalk h.inv.tree.root_node)

theorem tree_eq_some (h : Rooted vfs) {labels : List Str} {node : Node} :
    vfs.tree labels = some node ↔ ∃ ino inode,
      Walk (vfs.filesystems ()).inodes.Entry 1 labels ino ∧
      (vfs.filesystems ()).inodes.get? ino = some inode ∧
      (inode.itype, inode.data) = node := by
  unfold VFS.tree nodeAt
  rw [Option.bind_eq_some_iff]
  simp only [walk_eq_some_iff h.inv, Option.map_eq_some_iff]
  constructor
  · rintro ⟨ino, hwalk, inode, hget, hnode⟩
    exact ⟨ino, inode, hwalk, hget, hnode⟩
  · rintro ⟨ino, inode, hwalk, hget, hnode⟩
    exact ⟨ino, hwalk, inode, hget, hnode⟩

theorem tree_eq_none (h : Rooted vfs) {labels : List Str} :
    vfs.tree labels = none ↔
      ∀ ino, ¬ Walk (vfs.filesystems ()).inodes.Entry 1 labels ino := by
  constructor
  · intro hnone ino hwalk
    obtain ⟨inode, hget⟩ := h.nodeAt_isSome hwalk
    rw [h.tree_eq_some.mpr ⟨ino, inode, hwalk, hget, rfl⟩] at hnone
    cases hnone
  · intro hnone
    by_contra hne
    obtain ⟨node, hnode⟩ := Option.ne_none_iff_exists'.mp hne
    obtain ⟨ino, inode, hwalk, -⟩ := h.tree_eq_some.mp hnode
    exact hnone ino hwalk

theorem visible_eq (h : Rooted vfs) (path : Str) :
    vfs.visible path = (vfs.tree (components '/' (path.drop 1))).map some := by
  unfold visible resolve? VFS.tree
  rw [h.resolvePath_drop]
  cases hwalk : walk (vfs.filesystems ()) 1 (components '/' (path.drop 1)) with
  | none => rfl
  | some ino =>
      have hlabels := (walk_eq_some_iff h.inv).mp hwalk
      obtain ⟨inode, hget⟩ := h.nodeAt_isSome hlabels
      have hpos := (h.inv.keyed hget).2.1
      simp [nodeAt, hget, show ¬ ino < 0 by omega]

theorem canAttach_iff (h : Rooted vfs) {cs : List Str} {name : Str} :
    NameTree.CanAttach Node.IsDir vfs.tree (cs ++ [name]) ↔
      ∃ d, Walk (vfs.filesystems ()).inodes.Entry 1 cs d ∧
        InodeTable.createError "tmpfs".toList (vfs.filesystems ()).inodes d name = none := by
  unfold NameTree.CanAttach
  rw [List.dropLast_concat, h.tree_eq_none]
  constructor
  · rintro ⟨-, hfree, node, hnode, hdir⟩
    obtain ⟨d, inode, hwalk, hget, rfl⟩ := h.tree_eq_some.mp hnode
    refine ⟨d, hwalk, InodeTable.createError_eq_none.mpr ⟨inode, hget, hdir, ?_⟩⟩
    by_contra hentry
    obtain ⟨ino, hino⟩ := Option.ne_none_iff_exists'.mp hentry
    exact hfree ino (hwalk.snoc ⟨inode, hget, hino⟩)
  · rintro ⟨d, hwalk, hok⟩
    obtain ⟨inode, hget, hdir, hfree⟩ := InodeTable.createError_eq_none.mp hok
    refine ⟨by simp, ?_, _, h.tree_eq_some.mpr ⟨d, inode, hwalk, hget, rfl⟩, hdir⟩
    intro ino hold
    obtain ⟨d', hwalk', inode', hget', hentry⟩ := walk_snoc_iff.mp hold
    obtain rfl := h.inv.tree.walk_end hwalk hwalk'
    rw [hget] at hget'
    cases hget'
    rw [hfree] at hentry
    cases hentry

theorem tree_grown (h : Rooted vfs) {cs : List Str} {name : Str} {d : Int} {inode : Inode}
    {fs : TmpFS} (hwalk : Walk (vfs.filesystems ()).inodes.Entry 1 cs d)
    (hgrown : TmpFS.Grown (vfs.filesystems ()) fs d name inode)
    (hkeeps : KeepsNodes (vfs.filesystems ()) fs) :
    (vfs.setFs () fs).tree =
      Function.update vfs.tree (cs ++ [name]) (some (inode.itype, inode.data)) := by
  have hrooted := h.setFs hgrown.inv
  have hnew : (vfs.setFs () fs).filesystems () = fs := by simp [VFS.setFs]
  have hwalks : ∀ labels b, Walk fs.inodes.Entry 1 labels b ↔
      Walk (vfs.filesystems ()).inodes.Entry 1 labels b ∨ (b = inode.ino ∧
        ∃ init, labels = init ++ [name] ∧ Walk (vfs.filesystems ()).inodes.Entry 1 init d) := by
    intro labels b
    rw [hgrown.entry]
    exact walk_addLeaf h.inv.tree hgrown.fresh h.inv.tree.root_node
  funext labels
  by_cases hlabels : labels = cs ++ [name]
  · have hget : fs.inodes.get? inode.ino = some inode := hgrown.lookup
    rw [hlabels, Function.update_self, hrooted.tree_eq_some, hnew]
    exact ⟨inode.ino, inode, (hwalks _ _).mpr (Or.inr ⟨rfl, cs, rfl, hwalk⟩), hget, rfl⟩
  · rw [Function.update_of_ne hlabels]
    unfold VFS.tree
    rw [hnew]
    have hsame : walk fs 1 labels = walk (vfs.filesystems ()) 1 labels := by
      apply Option.ext
      intro b
      rw [walk_eq_some_iff hgrown.inv, walk_eq_some_iff h.inv, hwalks]
      refine or_iff_left ?_
      rintro ⟨-, init, rfl, hinit⟩
      exact hlabels (by rw [h.inv.tree.walk_unique hinit hwalk])
    rw [hsame]
    cases hold : walk (vfs.filesystems ()) 1 labels with
    | none => rfl
    | some ino =>
        have hmem := h.inv.tree.walk_node ((walk_eq_some_iff h.inv).mp hold)
          h.inv.tree.root_node
        exact hkeeps ino hmem

end Rooted

/-! ## One creation attaches one node -/

theorem keepsNodes_create {fs : TmpFS} (h : TmpFS.Inv fs) {d : Int} {name : Str}
    (hok : InodeTable.createError "tmpfs".toList fs.inodes d name = none)
    (itype : InodeType) : KeepsNodes fs (fs.create d name itype).2 := by
  obtain ⟨parent, hparent, -, -⟩ := InodeTable.createError_eq_none.mp hok
  have hfresh : (fs.newInode itype 0o644).1.ino ∉ fs.inodes := h.fresh
  intro ino hino
  obtain ⟨inode, hget⟩ := Dict.mem_iff_exists.mp hino
  obtain ⟨inode', hget', htype, hdata⟩ :=
    InodeTable.get?_enter_of_some name hparent hfresh hget
  rw [TmpFS.create_of_none hok]
  simp only [nodeAt, hget', hget, Option.map_some, htype, hdata]

theorem keepsNodes_fill {fs fs' : TmpFS} (h : KeepsNodes fs fs') {ino : Int}
    (hfresh : ino ∉ fs.inodes) (content : Bytes) : KeepsNodes fs (fill fs' ino content) := by
  intro other hother
  have hne : other ≠ ino := fun hsame => hfresh (hsame ▸ hother)
  rw [← h other hother]
  unfold fill
  split
  · rfl
  · have hsize : nodeAt (Filesystem.setSize (Filesystem.write fs' ino 0 content).2 ino
        content.length) other = nodeAt (Filesystem.write fs' ino 0 content).2 other :=
      congrArg (Option.map _) (Dict.get?_modify_of_ne _ _ hne)
    rw [hsize]
    change nodeAt (TmpFS.write fs' ino 0 content).2 other = _
    unfold nodeAt TmpFS.write
    rcases InodeTable.write_cases (-2) fs'.inodes ino 0 content with
      ⟨inode, -, -, hwrite⟩ | ⟨-, hsame, -⟩
    · rw [hwrite]
      exact congrArg (Option.map _) (Dict.get?_modify_of_ne _ _ hne)
    · dsimp only
      rw [hsame]

namespace Rooted

variable {vfs : VFS Unit TmpFS}

theorem attachesNode_of_grown (h : Rooted vfs) {cs : List Str} {name : Str} {d : Int}
    {inode : Inode} {fs : TmpFS} (hwalk : Walk (vfs.filesystems ()).inodes.Entry 1 cs d)
    (hok : InodeTable.createError "tmpfs".toList (vfs.filesystems ()).inodes d name = none)
    (hgrown : TmpFS.Grown (vfs.filesystems ()) fs d name inode)
    (hkeeps : KeepsNodes (vfs.filesystems ()) fs) :
    AttachesNode vfs (cs ++ [name]) (inode.itype, inode.data) (true, vfs.setFs () fs) := by
  have hcan := h.canAttach_iff.mpr ⟨d, hwalk, hok⟩
  refine ⟨iff_of_true rfl hcan, ?_⟩
  rw [NameTree.attach_of_can hcan]
  exact h.tree_grown hwalk hgrown hkeeps

theorem attachesNode_of_error (h : Rooted vfs) {cs : List Str} {name : Str} (node : Node)
    (hfail : ∀ d, Walk (vfs.filesystems ()).inodes.Entry 1 cs d →
      InodeTable.createError "tmpfs".toList (vfs.filesystems ()).inodes d name ≠ none) :
    AttachesNode vfs (cs ++ [name]) node (false, vfs) := by
  have hcan : ¬ NameTree.CanAttach Node.IsDir vfs.tree (cs ++ [name]) := by
    rw [h.canAttach_iff]
    rintro ⟨d, hwalk, hok⟩
    exact hfail d hwalk hok
  exact ⟨iff_of_false (by simp) hcan, (NameTree.attach_of_not_can hcan node).symm⟩

theorem attachesNode_mkdir (h : Rooted vfs) {cs : List Str} {name : Str}
    (hcs : ∀ c ∈ cs ++ [name], IsComponent '/' c) :
    AttachesNode vfs (cs ++ [name]) (.dir, []) (vfs.mkdir (spell '/' (cs ++ [name]))) := by
  unfold VFS.mkdir
  rw [baseName_spell hcs]
  rcases h.parent_cases hcs with ⟨d, hresolve, hwalk, hok⟩ | ⟨hfail, hnone⟩
  · obtain ⟨hcreate, hgrown⟩ := h.inv.grown_create hok .dir
    have hmkdir : Filesystem.mkdir (vfs.filesystems ()) d name = _ := hcreate
    simp only [hresolve, hmkdir]
    exact h.attachesNode_of_grown hwalk hok hgrown (keepsNodes_create h.inv hok .dir)
  · rcases hfail with hresolve | ⟨d, error, hresolve, herror⟩
    · simp only [hresolve]
      exact h.attachesNode_of_error _ hnone
    · have hmkdir : Filesystem.mkdir (vfs.filesystems ()) d name =
          (.error error, vfs.filesystems ()) := TmpFS.create_of_error herror _
      simp only [hresolve, hmkdir, setFs_self]
      exact h.attachesNode_of_error _ hnone

theorem attachesNode_createFile (h : Rooted vfs) {cs : List Str} {name : Str}
    (hcs : ∀ c ∈ cs ++ [name], IsComponent '/' c) (content : Bytes) :
    AttachesNode vfs (cs ++ [name]) (.file, content)
      (vfs.createFile (spell '/' (cs ++ [name])) content) := by
  unfold VFS.createFile
  rw [baseName_spell hcs]
  rcases h.parent_cases hcs with ⟨d, hresolve, hwalk, hok⟩ | ⟨hfail, hnone⟩
  · obtain ⟨hcreate, hgrown⟩ := h.inv.grown_create hok .file
    obtain ⟨inode, hfilled, hfile, hdata, -⟩ := grown_fill hgrown rfl rfl content
    have hkeeps := keepsNodes_fill (keepsNodes_create h.inv hok .file) hgrown.fresh content
    have hcreate : Filesystem.create (vfs.filesystems ()) d name .file = _ := hcreate
    simp only [hresolve, hcreate]
    have hattached := h.attachesNode_of_grown hwalk hok hfilled hkeeps
    rwa [hfile, hdata] at hattached
  · rcases hfail with hresolve | ⟨d, error, hresolve, herror⟩
    · simp only [hresolve]
      exact h.attachesNode_of_error _ hnone
    · have hcreate : Filesystem.create (vfs.filesystems ()) d name .file =
          (.error error, vfs.filesystems ()) := TmpFS.create_of_error herror _
      simp only [hresolve, hcreate, setFs_self]
      exact h.attachesNode_of_error _ hnone

end Rooted

/-! ## Two creations -/

inductive Creation
  | mkdir (path : Str)
  | createFile (path : Str) (content : Bytes)

namespace Creation

def path : Creation → Str
  | .mkdir path => path
  | .createFile path _ => path

def node : Creation → Node
  | .mkdir _ => (.dir, [])
  | .createFile _ content => (.file, content)

def perform (vfs : VFS Unit TmpFS) : Creation → Bool × VFS Unit TmpFS
  | .mkdir path => vfs.mkdir path
  | .createFile path content => vfs.createFile path content

theorem rooted {vfs : VFS Unit TmpFS} (h : Rooted vfs) (creation : Creation) :
    Rooted (creation.perform vfs).2 := by
  cases creation with
  | mkdir path => exact h.mkdir path
  | createFile path content => exact h.createFile path content

theorem attachesNode {vfs : VFS Unit TmpFS} (h : Rooted vfs) (creation : Creation)
    (hpath : Normalized '/' creation.path) (hne : components '/' creation.path ≠ []) :
    AttachesNode vfs (components '/' creation.path) creation.node (creation.perform vfs) := by
  obtain ⟨cs, name, hsplit⟩ :=
    (List.eq_nil_or_concat' (components '/' creation.path)).resolve_left hne
  have hcs : ∀ c ∈ cs ++ [name], IsComponent '/' c := by
    rw [← hsplit]
    exact fun c => isComponent_of_mem
  have hspell := hpath.eq_spell
  rw [hsplit] at hspell ⊢
  cases creation with
  | mkdir path =>
      change path = _ at hspell
      rw [hspell]
      exact h.attachesNode_mkdir hcs
  | createFile path content =>
      change path = _ at hspell
      rw [hspell]
      exact h.attachesNode_createFile hcs content

/-- Creations at two paths, neither of which is the other or lies above it, give the same
results and the same visible tree in either order. -/
theorem perform_comm (source : Str) (ops : List Op) (first second : Creation)
    (hfirst : Normalized '/' first.path) (hsecond : Normalized '/' second.path)
    (h : ¬ components '/' first.path <+: components '/' second.path)
    (h' : ¬ components '/' second.path <+: components '/' first.path) :
    let vfs := Run.run step (rootVfs source) ops
    (second.perform (first.perform vfs).2).1 = (second.perform vfs).1 ∧
    (first.perform (second.perform vfs).2).1 = (first.perform vfs).1 ∧
    ∀ path, (second.perform (first.perform vfs).2).2.visible path =
      (first.perform (second.perform vfs).2).2.visible path := by
  intro vfs
  have hrooted : Rooted vfs := Run.run_invariant rooted_step (rooted_rootVfs source) ops
  have hne : components '/' first.path ≠ [] := fun hnil => h (hnil ▸ List.nil_prefix)
  have hne' : components '/' second.path ≠ [] := fun hnil => h' (hnil ▸ List.nil_prefix)
  have hone := first.attachesNode hrooted hfirst hne
  have hother := second.attachesNode hrooted hsecond hne'
  have honeLast := first.attachesNode (second.rooted hrooted) hfirst hne
  have hotherLast := second.attachesNode (first.rooted hrooted) hsecond hne'
  refine ⟨?_, ?_, fun path => ?_⟩
  · rw [Bool.eq_iff_iff, hotherLast.returns, hother.returns, hone.tree]
    exact NameTree.canAttach_attach_iff h _
  · rw [Bool.eq_iff_iff, honeLast.returns, hone.returns, hother.tree]
    exact NameTree.canAttach_attach_iff h' _
  · rw [(second.rooted (first.rooted hrooted)).visible_eq,
      (first.rooted (second.rooted hrooted)).visible_eq, hotherLast.tree, honeLast.tree,
      hone.tree, hother.tree, NameTree.attach_comm h h']

/-- Two files in one directory, numbered in the order of their creation. -/
theorem perform_comm_siblings :
    let vfs := Run.run step (rootVfs "none".toList) [.mkdir "/etc".toList]
    let a := Creation.createFile "/etc/a".toList [1]
    let b := Creation.createFile "/etc/b".toList [2]
    (b.perform (a.perform vfs).2).2.visible "/etc/a".toList =
      (a.perform (b.perform vfs).2).2.visible "/etc/a".toList ∧
    (b.perform (a.perform vfs).2).2.resolve? "/etc/a".toList ≠
      (a.perform (b.perform vfs).2).2.resolve? "/etc/a".toList := by
  intro vfs a b
  have ha : Normalized '/' a.path := Or.inr ⟨"etc/a".toList, rfl, by decide⟩
  have hb : Normalized '/' b.path := Or.inr ⟨"etc/b".toList, rfl, by decide⟩
  exact ⟨(perform_comm "none".toList [.mkdir "/etc".toList] a b ha hb (by decide)
    (by decide)).2.2 _, by decide⟩

end Creation

end VFS

end ComputeKernel.Vfs
