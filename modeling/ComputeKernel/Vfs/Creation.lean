import ComputeKernel.Fs.TmpFSTree
import ComputeKernel.Lib.Run
import ComputeKernel.Vfs.Resolution

/-!
# Creating files and directories by path

One tmpfs is mounted at `/`.  A normalized path then resolves by the walk along
its components, and creating a node hangs one leaf into the tree, so that no
other path resolves differently.
-/

namespace ComputeKernel.Vfs.VFS

open Lib Lib.Path Lib.Tree Fs

/-- One tmpfs at `/`, in any state that keeps its invariant. -/
structure Rooted (vfs : VFS Unit TmpFS) : Prop where
  mounts : ∃ source, vfs.mounts = [⟨['/'], (), source⟩]
  inv : TmpFS.Inv (vfs.filesystems ())

def directoryOf (path : Str) : Str :=
  spell '/' (components '/' path).dropLast

/-- `result` is that of creating an inode of the given type and content at `path`:
it reports success exactly when the path is free and its directory is there, success
makes the inode and leaves every other path alone, and failure changes nothing. -/
structure CreatesExactly (vfs : VFS Unit TmpFS) (path : Str)
    (result : Bool × VFS Unit TmpFS) (itype : InodeType) (content : Bytes) : Prop where
  returns : result.1 = true ↔
    vfs.stat path = none ∧ ∃ dir, vfs.stat (directoryOf path) = some dir ∧ dir.itype = .dir
  created : result.1 = true → ∃ inode, result.2.stat path = some inode ∧
    inode.ino ∉ (vfs.filesystems ()).inodes ∧ inode.itype = itype ∧
    inode.data = content ∧ inode.size = content.length ∧ inode.children = Dict.empty
  others : result.1 = true → ∀ other, Normalized '/' other → other ≠ path →
    result.2.resolvePath other = vfs.resolvePath other
  unchanged : result.1 = false → result.2 = vfs

/-! ## Splitting a path into directory and name -/

theorem baseName_spell {cs : List Str} {name : Str}
    (hcs : ∀ c ∈ cs ++ [name], IsComponent '/' c) :
    baseName (spell '/' (cs ++ [name])) = name := by
  rw [baseName, rdropWhile_spell hcs, splitOn_render hcs, ← List.cons_append,
    List.getLastD_concat]

theorem parentPath_spell {cs : List Str} {name : Str}
    (hcs : ∀ c ∈ cs ++ [name], IsComponent '/' c) :
    parentPath (spell '/' (cs ++ [name])) = spell '/' cs := by
  have hsections : ((spell '/' (cs ++ [name])).rdropWhile (· == '/')).splitOn '/' =
      ([] :: cs) ++ [name] := by
    rw [rdropWhile_spell hcs, splitOn_render hcs, List.cons_append]
  unfold parentPath
  rw [hsections]
  simp only [List.dropLast_concat, intercalate_eq_render, List.nil_append, render_eq_nil, spell]

/-! ## Resolution is the walk from the root -/

theorem components_drop {path : Str} (hpath : Normalized '/' path) :
    components '/' (path.drop 1) = components '/' path := by
  obtain ⟨rest, rfl⟩ := hpath.absolute
  exact (components_sep_cons rest).symm

theorem walk_eq_some_iff {fs : TmpFS} (h : TmpFS.Inv fs) {a b : Int} {names : List Str} :
    walk fs a names = some b ↔ Walk fs.inodes.Entry a names b := by
  induction names generalizing a with
  | nil => simp [walk]
  | cons name names ih =>
      rw [walk_cons_iff, walk]
      constructor
      · intro hwalk
        split at hwalk
        · cases hwalk
        · rename_i child hchild
          exact ⟨child.ino, (h.lookupName_eq_some.mp hchild).1, ih.mp hwalk⟩
      · rintro ⟨c, hentry, hrest⟩
        obtain ⟨child, hchild⟩ := Dict.mem_iff_exists.mp (h.tree.target hentry)
        obtain rfl := (h.keyed hchild).1
        have hname : Filesystem.lookupName fs a name = some child :=
          h.lookupName_eq_some.mpr ⟨hentry, hchild⟩
        simp only [hname]
        exact ih.mpr hrest

namespace Rooted

variable {vfs : VFS Unit TmpFS}

/-- With one mount at `/` every path, absolute or not, is looked up from the root. -/
theorem resolvePath_drop (h : Rooted vfs) (path : Str) :
    vfs.resolvePath path =
      (some (), (walk (vfs.filesystems ()) 1 (components '/' (path.drop 1))).getD (-2)) := by
  obtain ⟨source, hmounts⟩ := h.mounts
  have hbest : vfs.bestMount path = some ⟨['/'], (), source⟩ := by
    rw [bestMount, hmounts, findMount]
    split
    · rfl
    · rw [if_pos ⟨rfl, rfl⟩, findMount]
  exact resolvePath_of_bestMount hbest

theorem resolve?_drop (h : Rooted vfs) (path : Str) (ino : Int) :
    vfs.resolve? path = some ((), ino) ↔
      Walk (vfs.filesystems ()).inodes.Entry 1 (components '/' (path.drop 1)) ino := by
  rw [← walk_eq_some_iff h.inv, resolve?, h.resolvePath_drop]
  cases hwalk : walk (vfs.filesystems ()) 1 (components '/' (path.drop 1)) with
  | none => simp
  | some ino' =>
      have hnode := h.inv.tree.walk_node ((walk_eq_some_iff h.inv).mp hwalk)
        h.inv.tree.root_node
      have hpos := (h.inv.lt_nextIno hnode).1
      simp [show ¬ ino' < 0 by omega]

theorem stat_drop (h : Rooted vfs) {path : Str} {inode : Inode} :
    vfs.stat path = some inode ↔
      Walk (vfs.filesystems ()).inodes.Entry 1 (components '/' (path.drop 1)) inode.ino ∧
        (vfs.filesystems ()).lookup inode.ino = some inode := by
  unfold stat
  constructor
  · intro hstat
    split at hstat
    · cases hstat
    · rename_i ino hresolve
      obtain rfl := (h.inv.keyed hstat).1
      exact ⟨(h.resolve?_drop path _).mp hresolve, hstat⟩
  · rintro ⟨hwalk, hlookup⟩
    rw [(h.resolve?_drop path _).mpr hwalk]
    exact hlookup

theorem resolvePath_eq (h : Rooted vfs) {path : Str} (hpath : Normalized '/' path) :
    vfs.resolvePath path =
      (some (), (walk (vfs.filesystems ()) 1 (components '/' path)).getD (-2)) := by
  rw [h.resolvePath_drop, components_drop hpath]

theorem resolve?_eq (h : Rooted vfs) {path : Str} (hpath : Normalized '/' path) (ino : Int) :
    vfs.resolve? path = some ((), ino) ↔
      Walk (vfs.filesystems ()).inodes.Entry 1 (components '/' path) ino := by
  rw [h.resolve?_drop, components_drop hpath]

theorem stat_eq_some (h : Rooted vfs) {path : Str} (hpath : Normalized '/' path)
    {inode : Inode} :
    vfs.stat path = some inode ↔
      Walk (vfs.filesystems ()).inodes.Entry 1 (components '/' path) inode.ino ∧
        (vfs.filesystems ()).lookup inode.ino = some inode := by
  rw [h.stat_drop, components_drop hpath]

theorem stat_eq_none (h : Rooted vfs) {path : Str} (hpath : Normalized '/' path) :
    vfs.stat path = none ↔
      ∀ ino, ¬ Walk (vfs.filesystems ()).inodes.Entry 1 (components '/' path) ino := by
  constructor
  · intro hstat ino hwalk
    have hnode := h.inv.tree.walk_node hwalk h.inv.tree.root_node
    obtain ⟨inode, hget⟩ := Dict.mem_iff_exists.mp hnode
    obtain rfl := (h.inv.keyed hget).1
    have hsome := (h.stat_eq_some hpath).mpr ⟨hwalk, hget⟩
    rw [hstat] at hsome
    cases hsome
  · intro hnone
    by_contra hne
    obtain ⟨inode, hinode⟩ := Option.ne_none_iff_exists'.mp hne
    exact hnone _ ((h.stat_eq_some hpath).mp hinode).1

end Rooted

/-! ## One creation -/

theorem Rooted.setFs {vfs : VFS Unit TmpFS} (h : Rooted vfs) {fs : TmpFS}
    (hfs : TmpFS.Inv fs) : Rooted (vfs.setFs () fs) where
  mounts := h.mounts
  inv := by simpa [VFS.setFs] using hfs

/-- Hanging a new inode under the directory of a path creates exactly that path. -/
theorem Rooted.createsExactly_of_grown {vfs : VFS Unit TmpFS} (h : Rooted vfs)
    {cs : List Str} {name : Str} (hcs : ∀ c ∈ cs ++ [name], IsComponent '/' c)
    {d : Int} {dir inode : Inode} {fs : TmpFS} {content : Bytes}
    (hwalk : Walk (vfs.filesystems ()).inodes.Entry 1 cs d)
    (hdir : (vfs.filesystems ()).lookup d = some dir) (htype : dir.itype = .dir)
    (hfree : dir.children.get? name = none)
    (hgrown : TmpFS.Grown (vfs.filesystems ()) fs d name inode)
    (hdata : inode.data = content) (hchildren : inode.children = Dict.empty) :
    CreatesExactly vfs (spell '/' (cs ++ [name])) (true, vfs.setFs () fs) inode.itype content := by
  have hinit : ∀ c ∈ cs, IsComponent '/' c := fun c hc => hcs c (List.mem_append_left _ hc)
  have hrooted := h.setFs hgrown.inv
  have hnew : (vfs.setFs () fs).filesystems () = fs := by simp [VFS.setFs]
  have hwalks : ∀ labels b, Walk fs.inodes.Entry 1 labels b ↔
      Walk (vfs.filesystems ()).inodes.Entry 1 labels b ∨ (b = inode.ino ∧
        ∃ init, labels = init ++ [name] ∧ Walk (vfs.filesystems ()).inodes.Entry 1 init d) := by
    intro labels b
    rw [hgrown.entry]
    exact walk_addLeaf h.inv.tree hgrown.fresh h.inv.tree.root_node
  refine
    { returns := iff_of_true rfl ⟨?_, dir, ?_, htype⟩
      created := fun _ => ⟨inode, ?_, hgrown.fresh, rfl, hdata, ?_, hchildren⟩
      others := fun _ other hother hne => ?_
      unchanged := fun hfalse => nomatch hfalse }
  · rw [h.stat_eq_none (normalized_spell hcs), components_spell hcs]
    intro ino hold
    obtain ⟨d', hwalk', dir', hdir', hentry⟩ := walk_snoc_iff.mp hold
    obtain rfl := h.inv.tree.walk_end hwalk hwalk'
    rw [show dir' = dir from Option.some.inj (hdir'.symm.trans hdir), hfree] at hentry
    cases hentry
  · rw [directoryOf, components_spell hcs, List.dropLast_concat,
      h.stat_eq_some (normalized_spell hinit), components_spell hinit, (h.inv.keyed hdir).1]
    exact ⟨hwalk, hdir⟩
  · rw [hrooted.stat_eq_some (normalized_spell hcs), hnew, components_spell hcs, hwalks]
    exact ⟨Or.inr ⟨rfl, cs, rfl, hwalk⟩, hgrown.lookup⟩
  · rw [← hdata]
    exact hgrown.inv.size hgrown.lookup
  · rw [hrooted.resolvePath_eq hother, h.resolvePath_eq hother, hnew]
    have hsame : walk fs 1 (components '/' other) =
        walk (vfs.filesystems ()) 1 (components '/' other) := by
      apply Option.ext
      intro b
      rw [walk_eq_some_iff hgrown.inv, walk_eq_some_iff h.inv, hwalks]
      refine or_iff_left ?_
      -- the only new walk spells the new path
      rintro ⟨-, init, hlabels, hinit'⟩
      rw [h.inv.tree.walk_unique hinit' hwalk] at hlabels
      exact hne (by rw [hother.eq_spell, hlabels])
    rw [hsame]

theorem Rooted.createsExactly_of_error {vfs : VFS Unit TmpFS} (h : Rooted vfs)
    {cs : List Str} {name : Str} (hcs : ∀ c ∈ cs ++ [name], IsComponent '/' c)
    (itype : InodeType) (content : Bytes)
    (hfail : ∀ d, Walk (vfs.filesystems ()).inodes.Entry 1 cs d →
      InodeTable.createError "tmpfs".toList (vfs.filesystems ()).inodes d name ≠ none) :
    CreatesExactly vfs (spell '/' (cs ++ [name])) (false, vfs) itype content := by
  have hinit : ∀ c ∈ cs, IsComponent '/' c := fun c hc => hcs c (List.mem_append_left _ hc)
  refine
    { returns := iff_of_false (by simp) ?_
      created := fun htrue => nomatch htrue
      others := fun htrue => nomatch htrue
      unchanged := fun _ => rfl }
  rintro ⟨hfree, dir, hdir, htype⟩
  rw [directoryOf, components_spell hcs, List.dropLast_concat,
    h.stat_eq_some (normalized_spell hinit), components_spell hinit] at hdir
  rw [h.stat_eq_none (normalized_spell hcs), components_spell hcs] at hfree
  refine hfail dir.ino hdir.1 (InodeTable.createError_eq_none.mpr ⟨dir, hdir.2, htype, ?_⟩)
  by_contra hentry
  obtain ⟨ino, hino⟩ := Option.ne_none_iff_exists'.mp hentry
  exact hfree ino (hdir.1.snoc ⟨dir, hdir.2, hino⟩)

theorem Rooted.parent_cases {vfs : VFS Unit TmpFS} (h : Rooted vfs) {cs : List Str}
    {name : Str} (hcs : ∀ c ∈ cs ++ [name], IsComponent '/' c) :
    (∃ d, vfs.resolve? (parentPath (spell '/' (cs ++ [name]))) = some ((), d) ∧
      Walk (vfs.filesystems ()).inodes.Entry 1 cs d ∧
      InodeTable.createError "tmpfs".toList (vfs.filesystems ()).inodes d name = none) ∨
    ((vfs.resolve? (parentPath (spell '/' (cs ++ [name]))) = none ∨
      ∃ d error, vfs.resolve? (parentPath (spell '/' (cs ++ [name]))) = some ((), d) ∧
        InodeTable.createError "tmpfs".toList (vfs.filesystems ()).inodes d name =
          some error) ∧
      ∀ d, Walk (vfs.filesystems ()).inodes.Entry 1 cs d →
        InodeTable.createError "tmpfs".toList (vfs.filesystems ()).inodes d name ≠ none) := by
  have hinit : ∀ c ∈ cs, IsComponent '/' c := fun c hc => hcs c (List.mem_append_left _ hc)
  have hresolve := h.resolve?_eq (normalized_spell hinit)
  rw [components_spell hinit] at hresolve
  rw [parentPath_spell hcs]
  cases hparent : vfs.resolve? (spell '/' cs) with
  | none =>
      refine Or.inr ⟨Or.inl rfl, fun d hwalk => ?_⟩
      rw [(hresolve d).mpr hwalk] at hparent
      cases hparent
  | some found =>
      obtain ⟨⟨⟩, d⟩ := found
      have hwalk := (hresolve d).mp hparent
      cases herror :
          InodeTable.createError "tmpfs".toList (vfs.filesystems ()).inodes d name with
      | none => exact Or.inl ⟨d, rfl, hwalk, herror⟩
      | some error =>
          refine Or.inr ⟨Or.inr ⟨d, error, rfl, herror⟩, fun d' hwalk' hnone => ?_⟩
          obtain rfl := h.inv.tree.walk_end hwalk hwalk'
          rw [herror] at hnone
          cases hnone

theorem Rooted.mkdir_spell {vfs : VFS Unit TmpFS} (h : Rooted vfs) {cs : List Str}
    {name : Str} (hcs : ∀ c ∈ cs ++ [name], IsComponent '/' c) :
    CreatesExactly vfs (spell '/' (cs ++ [name])) (vfs.mkdir (spell '/' (cs ++ [name])))
      .dir [] := by
  unfold VFS.mkdir
  rw [baseName_spell hcs]
  rcases h.parent_cases hcs with ⟨d, hresolve, hwalk, hok⟩ | ⟨hfail, hnone⟩
  · obtain ⟨hcreate, hgrown⟩ := h.inv.grown_create hok .dir
    obtain ⟨dir, hdir, htype, hfree⟩ := InodeTable.createError_eq_none.mp hok
    have hmkdir : Filesystem.mkdir (vfs.filesystems ()) d name = _ := hcreate
    simp only [hresolve, hmkdir]
    exact h.createsExactly_of_grown hcs hwalk hdir htype hfree hgrown rfl rfl
  · rcases hfail with hresolve | ⟨d, error, hresolve, herror⟩
    · simp only [hresolve]
      exact h.createsExactly_of_error hcs .dir [] hnone
    · have hmkdir : Filesystem.mkdir (vfs.filesystems ()) d name =
          (.error error, vfs.filesystems ()) := TmpFS.create_of_error herror _
      simp only [hresolve, hmkdir, setFs_self]
      exact h.createsExactly_of_error hcs .dir [] hnone

theorem grown_fill {fs fs' : TmpFS} {d : Int} {name : Str} {inode : Inode}
    (h : TmpFS.Grown fs fs' d name inode) (hfile : inode.itype = .file)
    (hdata : inode.data = []) (content : Bytes) :
    ∃ inode', TmpFS.Grown fs (fill fs' inode.ino content) d name inode' ∧
      inode'.itype = .file ∧ inode'.data = content ∧ inode'.children = inode.children := by
  unfold fill
  split
  · rename_i hcontent
    exact ⟨inode, h, hfile, by rw [hdata, hcontent], rfl⟩
  · have hget : fs'.inodes.get? inode.ino = some inode := h.lookup
    have hwrite : (Filesystem.write fs' inode.ino 0 content).2 =
        fs'.update inode.ino fun inode => inode.splice 0 content := by
      change (TmpFS.write fs' inode.ino 0 content).2 = _
      simp [TmpFS.write, InodeTable.write, hget, hfile, TmpFS.update,
        Dict.modify_of_get? _ hget]
    have hspliced : (inode.splice 0 content).data = content := by
      simp [spliceAt_zero, hdata]
    have hupdated := h.update (TmpFS.keepsShape_splice 0 content)
    have hsize : Filesystem.setSize
        (fs'.update inode.ino fun inode => inode.splice 0 content) inode.ino content.length =
        fs'.update inode.ino fun inode => inode.splice 0 content := by
      -- the size is already that of the content
      have hlookup : (fs'.update inode.ino fun inode => inode.splice 0 content).inodes.get?
          inode.ino = some (inode.splice 0 content) := hupdated.lookup
      have hlength : (inode.splice 0 content).size = content.length := by
        rw [Inode.splice_size, hspliced]
      change TmpFS.update _ _ _ = _
      rw [TmpFS.update, Dict.modify_of_get? _ hlookup, ← hlength, Dict.set_eq_self hlookup]
    rw [hwrite, hsize]
    exact ⟨inode.splice 0 content, hupdated, hfile, hspliced, rfl⟩

theorem Rooted.createFile_spell {vfs : VFS Unit TmpFS} (h : Rooted vfs) {cs : List Str}
    {name : Str} (hcs : ∀ c ∈ cs ++ [name], IsComponent '/' c) (content : Bytes) :
    CreatesExactly vfs (spell '/' (cs ++ [name]))
      (vfs.createFile (spell '/' (cs ++ [name])) content) .file content := by
  unfold VFS.createFile
  rw [baseName_spell hcs]
  rcases h.parent_cases hcs with ⟨d, hresolve, hwalk, hok⟩ | ⟨hfail, hnone⟩
  · obtain ⟨hcreate, hgrown⟩ := h.inv.grown_create hok .file
    obtain ⟨dir, hdir, htype, hfree⟩ := InodeTable.createError_eq_none.mp hok
    obtain ⟨inode, hfilled, hfile, hdata, hchildren⟩ := grown_fill hgrown rfl rfl content
    have hcreate : Filesystem.create (vfs.filesystems ()) d name .file = _ := hcreate
    simp only [hresolve, hcreate]
    have hexact :=
      h.createsExactly_of_grown hcs hwalk hdir htype hfree hfilled hdata hchildren
    rwa [hfile] at hexact
  · rcases hfail with hresolve | ⟨d, error, hresolve, herror⟩
    · simp only [hresolve]
      exact h.createsExactly_of_error hcs .file content hnone
    · have hcreate : Filesystem.create (vfs.filesystems ()) d name .file =
          (.error error, vfs.filesystems ()) := TmpFS.create_of_error herror _
      simp only [hresolve, hcreate, setFs_self]
      exact h.createsExactly_of_error hcs .file content hnone

/-! ## Runs -/

inductive Op
  | mkdir (path : Str)
  | createFile (path : Str) (content : Bytes)
  | writePath (path : Str) (data : Bytes)

def step (vfs : VFS Unit TmpFS) : Op → VFS Unit TmpFS
  | .mkdir path => (vfs.mkdir path).2
  | .createFile path content => (vfs.createFile path content).2
  | .writePath path data => (vfs.writePath path data).2

def rootVfs (source : Str) : VFS Unit TmpFS :=
  (init fun _ => TmpFS.init).mount "/".toList () source

theorem rooted_rootVfs (source : Str) : Rooted (rootVfs source) where
  mounts := ⟨source, rfl⟩
  inv := TmpFS.inv_init

namespace Rooted

variable {vfs : VFS Unit TmpFS}

theorem mkdir (h : Rooted vfs) (path : Str) : Rooted (vfs.mkdir path).2 := by
  unfold VFS.mkdir
  split
  · exact h
  · rename_i parentIno _
    have hinv : TmpFS.Inv
        (Filesystem.mkdir (vfs.filesystems ()) parentIno (baseName path)).2 :=
      h.inv.create parentIno (baseName path) .dir
    split
    · rename_i heq
      rw [heq] at hinv
      exact h.setFs hinv
    · rename_i heq
      rw [heq] at hinv
      exact h.setFs hinv

theorem createFile (h : Rooted vfs) (path : Str) (content : Bytes) :
    Rooted (vfs.createFile path content).2 := by
  unfold VFS.createFile
  split
  · exact h
  · rename_i parentIno _
    cases herror : InodeTable.createError "tmpfs".toList (vfs.filesystems ()).inodes
        parentIno (baseName path) with
    | none =>
        obtain ⟨hcreate, hgrown⟩ := h.inv.grown_create herror .file
        obtain ⟨inode, hfilled, -⟩ := grown_fill hgrown rfl rfl content
        have hcreate : Filesystem.create (vfs.filesystems ()) parentIno (baseName path)
          .file = _ := hcreate
        simp only [hcreate]
        exact h.setFs hfilled.inv
    | some error =>
        have hcreate : Filesystem.create (vfs.filesystems ()) parentIno (baseName path)
            .file = (.error error, vfs.filesystems ()) := TmpFS.create_of_error herror _
        simp only [hcreate]
        exact h.setFs h.inv

theorem writePath (h : Rooted vfs) (path : Str) (data : Bytes) :
    Rooted (vfs.writePath path data).2 := by
  unfold VFS.writePath
  split
  · exact h.createFile path data
  · exact h.setFs (h.inv.write _ 0 data)

theorem createsExactly_mkdir (h : Rooted vfs) {path : Str} (hpath : Normalized '/' path)
    (hne : components '/' path ≠ []) : CreatesExactly vfs path (vfs.mkdir path) .dir [] := by
  obtain ⟨cs, name, hcs, rfl⟩ := hpath.exists_concat hne
  exact h.mkdir_spell hcs

theorem createsExactly_createFile (h : Rooted vfs) {path : Str} (hpath : Normalized '/' path)
    (hne : components '/' path ≠ []) (content : Bytes) :
    CreatesExactly vfs path (vfs.createFile path content) .file content := by
  obtain ⟨cs, name, hcs, rfl⟩ := hpath.exists_concat hne
  exact h.createFile_spell hcs content

theorem readPath_eq (h : Rooted vfs) {path : Str} (hpath : Normalized '/' path) {inode : Inode}
    (hstat : vfs.stat path = some inode) (hregular : inode.itype = .file) {n : Int}
    (hn : 0 ≤ n) : vfs.readPath path n = some (inode.data.take n.toNat) := by
  obtain ⟨hwalk, hlookup⟩ := (h.stat_eq_some hpath).mp hstat
  have hget : (vfs.filesystems ()).inodes.get? inode.ino = some inode := hlookup
  have hlookup : Filesystem.lookup (vfs.filesystems ()) inode.ino = some inode := hlookup
  have hread : Filesystem.read (vfs.filesystems ()) inode.ino 0 n = inode.data.take n.toNat := by
    change InodeTable.read _ _ _ _ = _
    simp [InodeTable.read, hget, hregular, slice_of_nonneg _ (Int.le_refl 0) hn]
  simp only [VFS.readPath, (h.resolve?_eq hpath _).mpr hwalk, hlookup, hregular, ne_eq, not_true,
    if_false, hread]

end Rooted

theorem rooted_step (vfs : VFS Unit TmpFS) (op : Op) (h : Rooted vfs) :
    Rooted (vfs.step op) := by
  cases op with
  | mkdir path => exact h.mkdir path
  | createFile path content => exact h.createFile path content
  | writePath path data => exact h.writePath path data

/-- In every state reached, creating a directory or a file at a normalized path
succeeds exactly when the path is free in an existing directory, makes exactly that
path, and reads back the content; a failure changes nothing. -/
theorem create_exact (source : Str) (ops : List Op) {path : Str}
    (hpath : Normalized '/' path) (hne : path ≠ ['/']) (content : Bytes) :
    let vfs := Run.run step (rootVfs source) ops
    CreatesExactly vfs path (vfs.mkdir path) .dir [] ∧
    CreatesExactly vfs path (vfs.createFile path content) .file content ∧
    ((vfs.createFile path content).1 = true → ∀ n : Int, 0 ≤ n →
      (vfs.createFile path content).2.readPath path n = some (content.take n.toNat)) := by
  intro vfs
  have h : Rooted vfs := Run.run_invariant rooted_step (rooted_rootVfs source) ops
  have hcomponents := hpath.components_ne_nil hne
  have hfile := h.createsExactly_createFile hpath hcomponents content
  refine ⟨h.createsExactly_mkdir hpath hcomponents, hfile, fun htrue n hn => ?_⟩
  obtain ⟨inode, hstat, -, hregular, hdata, -⟩ := hfile.created htrue
  rw [(h.createFile path content).readPath_eq hpath hstat hregular hn, hdata]

/-- A file created in a directory that was made before it. -/
theorem create_exact_motd :
    let vfs := Run.run step (rootVfs "none".toList) [.mkdir "/etc".toList]
    CreatesExactly vfs "/etc/motd".toList
      (vfs.createFile "/etc/motd".toList [104, 105]) .file [104, 105] := by
  have hpath : Normalized '/' "/etc/motd".toList :=
    Or.inr ⟨"etc/motd".toList, rfl, by decide⟩
  exact (create_exact "none".toList [.mkdir "/etc".toList] hpath (by decide) [104, 105]).2.1

end ComputeKernel.Vfs.VFS
