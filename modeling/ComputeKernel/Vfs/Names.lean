import ComputeKernel.Fs.Volume
import ComputeKernel.Lib.Run
import ComputeKernel.Vfs.OpenFiles

/-!
# The names behind a path

Resolution depends on a path only through the chosen filesystem and the names walked in it.
Where the directories of every filesystem form a tree, two paths lead to the same inode only
if these are the same for both.
-/

namespace ComputeKernel.Vfs

open Lib Lib.Path Lib.Run Lib.Tree Fs

namespace VFS

variable {ρ F : Type}

def names (vfs : VFS ρ F) (path : Str) : Option (ρ × List Str) :=
  (vfs.bestMount path).map fun mp => (mp.fs, walkedNames mp path)

section Filesystem

variable [Filesystem F]

def NamesOnce (fs : F) : Prop :=
  ∀ {names names' : List Str} {ino : Int},
    walk fs (Filesystem.rootIno fs) names = some ino →
    walk fs (Filesystem.rootIno fs) names' = some ino → names = names'

theorem resolvePath_of_names {vfs : VFS ρ F} {path : Str} {ref : ρ} {names : List Str}
    (h : vfs.names path = some (ref, names)) :
    vfs.resolvePath path =
      (some ref, (walk (vfs.filesystems ref) (Filesystem.rootIno (vfs.filesystems ref))
        names).getD (-2)) := by
  obtain ⟨mp, hbest, hmp⟩ := Option.map_eq_some_iff.mp h
  cases hmp
  exact resolvePath_of_bestMount hbest

theorem resolvePath_of_names_eq_none {vfs : VFS ρ F} {path : Str} (h : vfs.names path = none) :
    vfs.resolvePath path = (none, -2) := by
  rw [names, Option.map_eq_none_iff] at h
  simp only [resolvePath, h]

theorem resolve?_iff_names {vfs : VFS ρ F} {path : Str} {ref : ρ} {ino : Int} :
    vfs.resolve? path = some (ref, ino) ↔
      0 ≤ ino ∧ ∃ names, vfs.names path = some (ref, names) ∧
        walk (vfs.filesystems ref) (Filesystem.rootIno (vfs.filesystems ref)) names =
          some ino := by
  rw [resolve?_eq_some, and_comm]
  apply and_congr_right
  intro hino
  cases hnames : vfs.names path with
  | none => simp [resolvePath_of_names_eq_none hnames]
  | some found =>
      obtain ⟨ref', names⟩ := found
      rw [resolvePath_of_names hnames]
      constructor
      · intro h
        obtain ⟨href, hwalk⟩ := Prod.mk.inj h
        cases href
        refine ⟨names, rfl, ?_⟩
        cases hresult : walk (vfs.filesystems ref) (Filesystem.rootIno (vfs.filesystems ref))
            names with
        | none =>
            rw [hresult] at hwalk
            change (-2 : Int) = ino at hwalk
            omega
        | some ino' =>
            rw [hresult] at hwalk
            exact congrArg some hwalk
      · rintro ⟨names', hsame, hwalk⟩
        cases hsame
        rw [hwalk]
        rfl

theorem resolve?_eq_iff_names {vfs : VFS ρ F} (h : ∀ ref, NamesOnce (vfs.filesystems ref))
    {path path' : Str} {found : ρ × Int} (hfound : vfs.resolve? path' = some found) :
    vfs.resolve? path = some found ↔ vfs.names path = vfs.names path' := by
  obtain ⟨ref, ino⟩ := found
  obtain ⟨hino, names', hnames', hwalk'⟩ := resolve?_iff_names.mp hfound
  rw [resolve?_iff_names, hnames']
  constructor
  · rintro ⟨-, names, hnames, hwalk⟩
    rw [hnames, h ref hwalk hwalk']
  · intro hnames
    exact ⟨hino, names', hnames, hwalk'⟩

end Filesystem

/-! ## What calls keep -/

section Calls

variable {P : ρ → F → Prop}

theorem keeps_setFs [DecidableEq ρ] {vfs : VFS ρ F} (h : ∀ ref, P ref (vfs.filesystems ref))
    (ref : ρ) {fs : F} (hfs : P ref fs) :
    ∀ other, P other ((vfs.setFs ref fs).filesystems other) := by
  intro other
  change P other (Function.update vfs.filesystems ref fs other)
  by_cases hother : other = ref
  · rw [hother, Function.update_self]
    exact hfs
  · rw [Function.update_of_ne hother]
    exact h other

theorem keeps_close {vfs : VFS ρ F} (h : ∀ ref, P ref (vfs.filesystems ref)) (fd : Int) :
    ∀ ref, P ref ((vfs.close fd).2.filesystems ref) := by
  unfold close
  split
  · exact h
  · exact h

variable [Filesystem F]

theorem keeps_read {vfs : VFS ρ F} (h : ∀ ref, P ref (vfs.filesystems ref)) (fd size : Int) :
    ∀ ref, P ref ((vfs.read fd size).2.filesystems ref) := by
  unfold read
  split
  · exact h
  · split
    · exact h
    · exact h

variable [DecidableEq ρ]

theorem keeps_open (hP : ∀ ref, Filesystem.Keeps (P ref)) {vfs : VFS ρ F}
    (h : ∀ ref, P ref (vfs.filesystems ref)) (path flags : Str) :
    ∀ ref, P ref ((vfs.open_ path flags).2.filesystems ref) := by
  unfold open_
  split
  · exact h
  · rename_i ref ino _
    split
    · exact h
    · have hcreated := (hP ref).create (h ref) ino (baseName path) .file
      split
      · split
        · rename_i hcreate
          rw [hcreate] at hcreated
          exact keeps_setFs h ref hcreated
        · rename_i hcreate
          rw [hcreate] at hcreated
          exact keeps_setFs h ref hcreated
        · rename_i hcreate
          rw [hcreate] at hcreated
          exact keeps_setFs h ref hcreated
      · exact h

theorem keeps_write (hP : ∀ ref, Filesystem.Keeps (P ref)) {vfs : VFS ρ F}
    (h : ∀ ref, P ref (vfs.filesystems ref)) (fd : Int) (data : Bytes) :
    ∀ ref, P ref ((vfs.write fd data).2.filesystems ref) := by
  unfold write
  split
  · exact h
  · rename_i file _
    split
    · exact h
    · rename_i ref _
      have hwritten := keeps_setFs h ref ((hP ref).write (h ref) file.ino file.position data)
      dsimp only
      split
      · exact hwritten
      · exact hwritten

theorem keeps_mkdir (hP : ∀ ref, Filesystem.Keeps (P ref)) {vfs : VFS ρ F}
    (h : ∀ ref, P ref (vfs.filesystems ref)) (path : Str) :
    ∀ ref, P ref ((vfs.mkdir path).2.filesystems ref) := by
  unfold mkdir
  split
  · exact h
  · rename_i ref parentIno _
    have hcreated := (hP ref).mkdir (h ref) parentIno (baseName path)
    split
    · rename_i hcreate
      rw [hcreate] at hcreated
      exact keeps_setFs h ref hcreated
    · rename_i hcreate
      rw [hcreate] at hcreated
      exact keeps_setFs h ref hcreated

theorem keeps_fill {Q : F → Prop} (hQ : Filesystem.Keeps Q) {fs : F} (h : Q fs) (ino : Int)
    (content : Bytes) : Q (fill fs ino content) := by
  unfold fill
  split
  · exact h
  · exact hQ.setSize (hQ.write h ino 0 content) ino content.length

theorem keeps_createFile (hP : ∀ ref, Filesystem.Keeps (P ref)) {vfs : VFS ρ F}
    (h : ∀ ref, P ref (vfs.filesystems ref)) (path : Str) (content : Bytes) :
    ∀ ref, P ref ((vfs.createFile path content).2.filesystems ref) := by
  unfold createFile
  split
  · exact h
  · rename_i ref parentIno _
    have hcreated := (hP ref).create (h ref) parentIno (baseName path) .file
    split
    · rename_i hcreate
      rw [hcreate] at hcreated
      exact keeps_setFs h ref (keeps_fill (hP ref) hcreated _ content)
    · rename_i hcreate
      rw [hcreate] at hcreated
      exact keeps_setFs h ref hcreated

theorem keeps_writePath (hP : ∀ ref, Filesystem.Keeps (P ref)) {vfs : VFS ρ F}
    (h : ∀ ref, P ref (vfs.filesystems ref)) (path : Str) (data : Bytes) :
    ∀ ref, P ref ((vfs.writePath path data).2.filesystems ref) := by
  unfold writePath
  split
  · exact keeps_createFile hP h path data
  · rename_i ref ino _
    exact keeps_setFs h ref ((hP ref).write (h ref) ino 0 data)

theorem keeps_perform (hP : ∀ ref, Filesystem.Keeps (P ref)) {vfs : VFS ρ F}
    (h : ∀ ref, P ref (vfs.filesystems ref)) (call : Call ρ) :
    ∀ ref, P ref ((vfs.perform call).filesystems ref) := by
  cases call with
  | mount mountpoint fs source => exact h
  | open_ path flags => exact keeps_open hP h path flags
  | mkdir path => exact keeps_mkdir hP h path
  | createFile path content => exact keeps_createFile hP h path content
  | writePath path data => exact keeps_writePath hP h path data
  | read fd size => exact keeps_read h fd size
  | write fd data => exact keeps_write hP h fd data
  | close fd => exact keeps_close h fd

end Calls

/-! ## Volumes -/

theorem walk_of_hierarchy {v : Volume} {root next : Int}
    (h : InodeTable.Hierarchy v.inodes root next) {a b : Int} {names : List Str}
    (hwalk : walk v a names = some b) : Walk v.inodes.Entry a names b := by
  induction names generalizing a with
  | nil =>
      exact walk_nil_iff.mpr (Option.some.inj hwalk)
  | cons name names ih =>
      rw [walk] at hwalk
      split at hwalk
      · cases hwalk
      · rename_i child hchild
        rw [Volume.lookupName_eq] at hchild
        exact .cons (h.entry_of_lookupName hchild) (ih hwalk)

theorem namesOnce_of_arranged {v : Volume} (h : v.Arranged) : NamesOnce v := by
  intro names names' ino hwalk hwalk'
  obtain ⟨next, htree⟩ := h.hierarchy
  exact htree.tree.walk_unique (walk_of_hierarchy htree hwalk) (walk_of_hierarchy htree hwalk')

variable [DecidableEq ρ]

/-- A call of the VFS, or of the driver of one volume. -/
inductive Request (ρ : Type)
  | call (call : Call ρ)
  | driver (ref : ρ) (op : Volume.Op)

def serve (vfs : VFS ρ Volume) : Request ρ → VFS ρ Volume
  | .call call => vfs.perform call
  | .driver ref op => vfs.setFs ref ((vfs.filesystems ref).step op)

theorem arranged_serve (vfs : VFS ρ Volume) (request : Request ρ)
    (h : ∀ ref, (vfs.filesystems ref).Arranged) :
    ∀ ref, ((vfs.serve request).filesystems ref).Arranged := by
  cases request with
  | call call => exact keeps_perform (fun _ => Volume.keeps_arranged) h call
  | driver ref op =>
      exact keeps_setFs (P := fun _ => Volume.Arranged) h ref (Volume.arranged_step (h ref) op)

def served (kinds : ρ → Volume.Kind) (requests : List (Request ρ)) : VFS ρ Volume :=
  run serve (init fun ref => Volume.new (kinds ref)) requests

theorem arranged_served (kinds : ρ → Volume.Kind) (requests : List (Request ρ)) :
    ∀ ref, ((served kinds requests).filesystems ref).Arranged :=
  run_invariant (P := fun vfs : VFS ρ Volume => ∀ ref, (vfs.filesystems ref).Arranged)
    arranged_serve (fun ref => Volume.arranged_new (kinds ref)) requests

theorem namesOnce_served (kinds : ρ → Volume.Kind) (requests : List (Request ρ)) (ref : ρ) :
    NamesOnce ((served kinds requests).filesystems ref) :=
  namesOnce_of_arranged (arranged_served kinds requests ref)

end VFS

end ComputeKernel.Vfs
