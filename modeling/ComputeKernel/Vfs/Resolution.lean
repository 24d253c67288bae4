import ComputeKernel.Vfs.VFS
import ComputeKernel.Fs.TmpFS

/-!
# Path resolution against component prefixes

The mount loop tests characters; the reference picks the mount point with the
longest component prefix.  Both agree on a path that is spelled the way its mount
point is, and every normalized path is.
-/

namespace ComputeKernel.Vfs.VFS

open Lib Lib.Path Fs

variable {ρ F : Type}

def mountAll (vfs : VFS ρ F) (calls : List (MountPoint ρ)) : VFS ρ F :=
  calls.foldl (fun vfs mp => vfs.mount mp.mountpoint mp.fs mp.source) vfs

structure MountsOk (vfs : VFS ρ F) : Prop where
  sorted : vfs.mounts.Pairwise MountPoint.LongerFirst
  normalized : ∀ mp ∈ vfs.mounts, Normalized '/' mp.mountpoint

/-- Names walked behind a chosen mount point. -/
def walkedNames (mp : MountPoint ρ) (path : Str) : List Str :=
  components '/' (path.drop mp.mountpoint.length)

def Covers (path : Str) (mp : MountPoint ρ) : Prop :=
  components '/' mp.mountpoint <+: components '/' path

instance (path : Str) : DecidablePred (@Covers ρ path) := fun mp =>
  inferInstanceAs (Decidable (components '/' mp.mountpoint <+: components '/' path))

def LongestCover (mounts : List (MountPoint ρ)) (path : Str) (mp : MountPoint ρ) : Prop :=
  Covers path mp ∧ ∀ other ∈ mounts, Covers path other →
    (components '/' other.mountpoint).length ≤ (components '/' mp.mountpoint).length

/-- The path is empty, or it is absolute and begins, letter by letter, with the
longest mount point that covers it. -/
def WellSpelled (vfs : VFS ρ F) (path : Str) : Prop :=
  path = [] ∨ (['/'] <+: path ∧ ∀ other ∈ vfs.mounts, Covers path other →
    ∃ mp ∈ vfs.mounts, Captures '/' mp.mountpoint path ∧
      (components '/' other.mountpoint).length ≤ (components '/' mp.mountpoint).length)

/-! ## The mount list -/

theorem mounts_mountAll_perm (vfs : VFS ρ F) (calls : List (MountPoint ρ)) :
    (vfs.mountAll calls).mounts.Perm (vfs.mounts ++ calls) := by
  induction calls generalizing vfs with
  | nil => simp [mountAll]
  | cons mp calls ih =>
      have hsort := List.perm_insertionSort MountPoint.LongerFirst (vfs.mounts ++ [mp])
      have hrest := ih (vfs.mount mp.mountpoint mp.fs mp.source)
      refine hrest.trans ?_
      have happend := hsort.append_right calls
      rwa [List.append_assoc, List.singleton_append] at happend

theorem mem_mounts_mountAll {filesystems : ρ → F} {calls : List (MountPoint ρ)}
    {mp : MountPoint ρ} :
    mp ∈ ((init filesystems).mountAll calls).mounts ↔ mp ∈ calls :=
  (mounts_mountAll_perm (init filesystems) calls).mem_iff

@[simp] theorem filesystems_mountAll (vfs : VFS ρ F) (calls : List (MountPoint ρ)) :
    (vfs.mountAll calls).filesystems = vfs.filesystems := by
  induction calls generalizing vfs with
  | nil => rfl
  | cons mp calls ih => exact ih _

theorem longerFirst_total (left right : MountPoint ρ) :
    left.LongerFirst right ∨ right.LongerFirst left :=
  Nat.le_total _ _

instance : Std.Total (@MountPoint.LongerFirst ρ) := ⟨longerFirst_total⟩

instance : IsTrans (MountPoint ρ) MountPoint.LongerFirst :=
  ⟨fun _ _ _ hab hbc => Nat.le_trans hbc hab⟩

theorem sorted_mountAll (vfs : VFS ρ F) (h : vfs.mounts.Pairwise MountPoint.LongerFirst)
    (calls : List (MountPoint ρ)) :
    (vfs.mountAll calls).mounts.Pairwise MountPoint.LongerFirst := by
  induction calls generalizing vfs with
  | nil => exact h
  | cons mp calls ih => exact ih _ (List.pairwise_insertionSort _ _)

theorem mountsOk_mountAll (filesystems : ρ → F) {calls : List (MountPoint ρ)}
    (hcalls : ∀ mp ∈ calls, Normalized '/' mp.mountpoint) :
    MountsOk ((init filesystems).mountAll calls) where
  sorted := sorted_mountAll _ List.Pairwise.nil calls
  normalized mp hmp := hcalls mp (mem_mounts_mountAll.mp hmp)

/-! ## The mount loop -/

theorem findMount_eq (path : Str) (mounts : List (MountPoint ρ))
    (best : Option (MountPoint ρ)) :
    findMount path mounts best =
      (mounts.find? fun mp => Captures '/' mp.mountpoint path).or
        (best.or (mounts.find? fun mp => mp.mountpoint = ['/'])) := by
  induction mounts generalizing best with
  | nil => simp [findMount]
  | cons mp mounts ih =>
      unfold findMount
      by_cases hcapture : Captures '/' mp.mountpoint path
      · simp [hcapture]
      · rw [if_neg hcapture, List.find?_cons_of_neg (by simpa using hcapture)]
        by_cases hroot : mp.mountpoint = ['/']
        · cases best with
          | none => simp [hroot, ih]
          | some best => simp [hroot, ih]
        · simp [hroot, ih]

theorem bestMount_of_captures {vfs : VFS ρ F} {path : Str} {mp : MountPoint ρ}
    (hmp : mp ∈ vfs.mounts) (h : Captures '/' mp.mountpoint path) :
    vfs.bestMount path = vfs.mounts.find? fun mp => Captures '/' mp.mountpoint path := by
  have hsome : (vfs.mounts.find? fun mp => Captures '/' mp.mountpoint path).isSome := by
    rw [List.find?_isSome]
    exact ⟨mp, hmp, by simpa using h⟩
  obtain ⟨best, hbest⟩ := Option.isSome_iff_exists.mp hsome
  rw [bestMount, findMount_eq, hbest]
  rfl

theorem MountsOk.longestCover_of_find? {vfs : VFS ρ F} (hvfs : MountsOk vfs) {path : Str}
    {mp : MountPoint ρ} (h : (vfs.mounts.find? fun mp => Covers path mp) = some mp) :
    mp ∈ vfs.mounts ∧ LongestCover vfs.mounts path mp := by
  have hmem : mp ∈ vfs.mounts := List.mem_of_find?_eq_some h
  obtain ⟨hcover, before, after, hsplit, hbefore⟩ := List.find?_eq_some_iff_append.mp h
  have hcover : Covers path mp := by simpa using hcover
  refine ⟨hmem, hcover, fun other hother hcover' => ?_⟩
  apply components_length_le (hvfs.normalized mp hmem) (hvfs.normalized other hother)
    hcover hcover'
  have hsorted := hvfs.sorted
  rw [hsplit] at hother hsorted
  rcases List.mem_append.mp hother with hother | hother
  · have hnot := hbefore other hother
    simp [hcover'] at hnot
  · rcases List.mem_cons.mp hother with rfl | hother
    · exact Nat.le_refl _
    · have htail := (List.pairwise_append.mp hsorted).2.1
      exact (List.pairwise_cons.mp htail).1 other hother

theorem LongestCover.mountpoint_eq {mounts : List (MountPoint ρ)} {path : Str}
    {mp other : MountPoint ρ} (hmp : LongestCover mounts path mp)
    (hother : LongestCover mounts path other) (hmem : mp ∈ mounts) (hmem' : other ∈ mounts)
    (hnorm : Normalized '/' mp.mountpoint) (hnorm' : Normalized '/' other.mountpoint) :
    mp.mountpoint = other.mountpoint := by
  have hlength : (components '/' mp.mountpoint).length =
      (components '/' other.mountpoint).length :=
    Nat.le_antisymm (hother.2 mp hmem hmp.1) (hmp.2 other hmem' hother.1)
  have hinitial := List.prefix_of_prefix_length_le hmp.1 hother.1 (Nat.le_of_eq hlength)
  exact hnorm.eq_of_components hnorm' (hinitial.eq_of_length hlength)

theorem MountsOk.captures_of_longestCover {vfs : VFS ρ F} (hvfs : MountsOk vfs)
    {path : Str} {mp : MountPoint ρ} (hmem : mp ∈ vfs.mounts)
    (hlongest : LongestCover vfs.mounts path mp)
    (h : ∃ other ∈ vfs.mounts, Captures '/' other.mountpoint path ∧
      (components '/' mp.mountpoint).length ≤ (components '/' other.mountpoint).length) :
    Captures '/' mp.mountpoint path := by
  obtain ⟨other, hother, hcapture, hle⟩ := h
  have hnorm := hvfs.normalized other hother
  have hlongest' : LongestCover vfs.mounts path other :=
    ⟨hcapture.isPrefix hnorm,
      fun third hthird hcover => Nat.le_trans (hlongest.2 third hthird hcover) hle⟩
  have hsame := hlongest'.mountpoint_eq hlongest hother hmem hnorm
    (hvfs.normalized mp hmem)
  rwa [hsame] at hcapture

theorem covers_nil_iff {mp : MountPoint ρ} (hnorm : Normalized '/' mp.mountpoint) :
    Covers [] mp ↔ mp.mountpoint = ['/'] := by
  unfold Covers
  rw [components_nil, List.prefix_nil]
  constructor
  · intro hnil
    by_contra hne
    exact hnorm.components_ne_nil hne hnil
  · rintro h
    simp [h]

theorem bestMount_of_wellSpelled {vfs : VFS ρ F} (hvfs : MountsOk vfs) {path : Str}
    (hpath : WellSpelled vfs path) :
    vfs.bestMount path = vfs.mounts.find? fun mp => Covers path mp := by
  rcases hpath with rfl | ⟨-, hspelled⟩
  · -- nothing captures the empty path, and the fallback looks for `/`
    have hnone : (vfs.mounts.find? fun mp => Captures '/' mp.mountpoint []) = none := by
      rw [List.find?_eq_none]
      intro mp hmp hcapture
      obtain ⟨rest, hrest⟩ :=
        Captures.absolute (hvfs.normalized mp hmp) (by simpa using hcapture)
      cases hrest
    rw [bestMount, findMount_eq, hnone]
    simp only [Option.none_or, ← List.head?_filter]
    apply congrArg List.head?
    apply List.filter_congr
    intro mp hmp
    simp [covers_nil_iff (hvfs.normalized mp hmp)]
  · have hcovers : ∀ mp ∈ vfs.mounts, Captures '/' mp.mountpoint path → Covers path mp :=
      fun mp hmp hcapture => hcapture.isPrefix (hvfs.normalized mp hmp)
    cases hfind : (vfs.mounts.find? fun mp => Covers path mp) with
    | none =>
        rw [List.find?_eq_none] at hfind
        have hcapture : (vfs.mounts.find? fun mp => Captures '/' mp.mountpoint path) = none := by
          rw [List.find?_eq_none]
          intro mp hmp hcapture
          apply hfind mp hmp
          simpa using hcovers mp hmp (by simpa using hcapture)
        have hroot : (vfs.mounts.find? fun mp => mp.mountpoint = ['/']) = none := by
          rw [List.find?_eq_none]
          intro mp hmp hroot
          apply hfind mp hmp
          have hroot : mp.mountpoint = ['/'] := by simpa using hroot
          simp [Covers, hroot]
        rw [bestMount, findMount_eq, hcapture, hroot]
        rfl
    | some mp =>
        obtain ⟨hmem, hlongest⟩ := hvfs.longestCover_of_find? hfind
        have hcapture := hvfs.captures_of_longestCover hmem hlongest
          (hspelled mp hmem hlongest.1)
        rw [bestMount_of_captures hmem hcapture, List.find?_eq_some_iff_append]
        obtain ⟨-, before, after, hsplit, hbefore⟩ := List.find?_eq_some_iff_append.mp hfind
        refine ⟨by simpa using hcapture, before, after, hsplit, fun first hfirst => ?_⟩
        have hnot : ¬ Covers path first := by simpa using hbefore first hfirst
        have hmem' : first ∈ vfs.mounts := hsplit ▸ List.mem_append_left _ hfirst
        simpa using fun hcapture => hnot (hcovers first hmem' hcapture)

theorem components_of_wellSpelled {vfs : VFS ρ F} (hvfs : MountsOk vfs) {path : Str}
    {mp : MountPoint ρ} (hpath : WellSpelled vfs path) (hbest : vfs.bestMount path = some mp) :
    mp ∈ vfs.mounts ∧ LongestCover vfs.mounts path mp ∧
      components '/' path = components '/' mp.mountpoint ++ walkedNames mp path := by
  have hfind := bestMount_of_wellSpelled hvfs hpath
  rw [hbest] at hfind
  obtain ⟨hmem, hlongest⟩ := hvfs.longestCover_of_find? hfind.symm
  refine ⟨hmem, hlongest, ?_⟩
  rcases hpath with rfl | ⟨-, hspelled⟩
  · have hroot := (covers_nil_iff (hvfs.normalized mp hmem)).mp hlongest.1
    simp [walkedNames, hroot]
  · have hcapture := hvfs.captures_of_longestCover hmem hlongest
      (hspelled mp hmem hlongest.1)
    exact hcapture.components (hvfs.normalized mp hmem)

theorem wellSpelled_of_normalized {vfs : VFS ρ F} (hvfs : MountsOk vfs) {path : Str}
    (hpath : Normalized '/' path) : WellSpelled vfs path := by
  obtain ⟨rest, hrest⟩ := hpath.absolute
  refine Or.inr ⟨⟨rest, hrest.symm⟩, fun other hother hcover => ⟨other, hother, ?_, ?_⟩⟩
  · exact (captures_iff_isPrefix (hvfs.normalized other hother) hpath).mpr hcover
  · exact Nat.le_refl _

theorem bestMount_iff_longestCover (filesystems : ρ → F) {calls : List (MountPoint ρ)}
    (hcalls : ∀ mp ∈ calls, Normalized '/' mp.mountpoint)
    (hdistinct : (calls.map MountPoint.mountpoint).Nodup) {path : Str}
    (hpath : Normalized '/' path) (mp : MountPoint ρ) :
    ((init filesystems).mountAll calls).bestMount path = some mp ↔
      mp ∈ calls ∧ LongestCover calls path mp := by
  have hvfs := mountsOk_mountAll filesystems hcalls
  have hspelled := wellSpelled_of_normalized hvfs hpath
  have hlongest : ∀ mp, LongestCover ((init filesystems).mountAll calls).mounts path mp ↔
      LongestCover calls path mp := by
    intro mp
    simp only [LongestCover, mem_mounts_mountAll]
  constructor
  · intro hbest
    obtain ⟨hmp, hcover, -⟩ := components_of_wellSpelled hvfs hspelled hbest
    exact ⟨mem_mounts_mountAll.mp hmp, (hlongest mp).mp hcover⟩
  · rintro ⟨hmp, hcover⟩
    -- the loop finds some longest cover, and there is only one
    have hsome : (((init filesystems).mountAll calls).mounts.find? fun mp =>
        Covers path mp).isSome := by
      rw [List.find?_isSome]
      exact ⟨mp, mem_mounts_mountAll.mpr hmp, by simpa using hcover.1⟩
    obtain ⟨found, hfound⟩ := Option.isSome_iff_exists.mp hsome
    obtain ⟨hfoundMem, hfoundCover⟩ := hvfs.longestCover_of_find? hfound
    have hfoundMem := mem_mounts_mountAll.mp hfoundMem
    have hsame := ((hlongest found).mp hfoundCover).mountpoint_eq hcover hfoundMem hmp
      (hcalls found hfoundMem) (hcalls mp hmp)
    rw [bestMount_of_wellSpelled hvfs hspelled, hfound,
      List.inj_on_of_nodup_map hdistinct hfoundMem hmp hsame]

def fsOf (vfs : VFS ρ F) (path : Str) : Option ρ :=
  (vfs.bestMount path).map MountPoint.fs

section Filesystem

variable [Filesystem F]

theorem resolvePath_fst (vfs : VFS ρ F) (path : Str) :
    (vfs.resolvePath path).1 = vfs.fsOf path := by
  unfold resolvePath fsOf
  cases vfs.bestMount path with
  | none => rfl
  | some best =>
      dsimp only [Option.map_some]
      split
      · rfl
      · split <;> rfl

theorem resolvePath_of_bestMount {vfs : VFS ρ F} {path : Str} {mp : MountPoint ρ}
    (h : vfs.bestMount path = some mp) :
    vfs.resolvePath path =
      (some mp.fs,
        (walk (vfs.filesystems mp.fs) (Filesystem.rootIno (vfs.filesystems mp.fs))
          (walkedNames mp path)).getD (-2)) := by
  rw [resolvePath, h]
  simp only [walkedNames]
  split
  · rename_i hrel
    have hnil : components '/' (path.drop mp.mountpoint.length) = [] := by
      rcases hrel with hrel | hrel <;> simp [hrel]
    simp [hnil, walk]
  · cases walk (vfs.filesystems mp.fs) (Filesystem.rootIno (vfs.filesystems mp.fs))
      (components '/' (path.drop mp.mountpoint.length)) <;> rfl

theorem resolve?_eq_some {vfs : VFS ρ F} {path : Str} {ref : ρ} {ino : Int} :
    vfs.resolve? path = some (ref, ino) ↔ vfs.resolvePath path = (some ref, ino) ∧ 0 ≤ ino := by
  unfold resolve?
  rcases vfs.resolvePath path with ⟨ref', ino'⟩
  cases ref' with
  | none => simp
  | some ref' =>
      by_cases hneg : ino' < 0
      · simp only [hneg, if_true, reduceCtorEq, Prod.mk.injEq, Option.some.injEq, false_iff,
          not_and]
        rintro ⟨rfl, rfl⟩
        omega
      · simp only [hneg, if_false, Option.some.injEq, Prod.mk.injEq]
        constructor
        · rintro ⟨rfl, rfl⟩
          exact ⟨⟨rfl, rfl⟩, by omega⟩
        · exact fun h => h.1

/-- The components of the path are those of the chosen mount point followed by the
names walked to the inode, and the chosen mount is a longest cover. -/
def MatchesReference (vfs : VFS ρ F) (path : Str) (ref : ρ) (ino : Int) : Prop :=
  ∃ mp, vfs.bestMount path = some mp ∧ mp.fs = ref ∧
    components '/' path = components '/' mp.mountpoint ++ walkedNames mp path ∧
    walk (vfs.filesystems ref) (Filesystem.rootIno (vfs.filesystems ref))
      (walkedNames mp path) = some ino ∧
    LongestCover vfs.mounts path mp

theorem wellSpelled_of_matchesReference {vfs : VFS ρ F} {path : Str} {ref : ρ} {ino : Int}
    (hvfs : MountsOk vfs) (h : MatchesReference vfs path ref ino) :
    WellSpelled vfs path := by
  obtain ⟨mp, hbest, -, hcomponents, -, hlongest⟩ := h
  by_cases hcapture : ∃ mp ∈ vfs.mounts, Captures '/' mp.mountpoint path
  · obtain ⟨first, hfirst, hcapture⟩ := hcapture
    rw [bestMount_of_captures hfirst hcapture] at hbest
    have hmem := List.mem_of_find?_eq_some hbest
    have hcapture : Captures '/' mp.mountpoint path := by
      simpa using List.find?_some hbest
    obtain ⟨rest, hrest⟩ := hcapture.absolute (hvfs.normalized mp hmem)
    exact Or.inr ⟨⟨rest, hrest.symm⟩,
      fun other hother hcover => ⟨mp, hmem, hcapture, hlongest.2 other hother hcover⟩⟩
  · -- the fallback was used: a nonempty path has lost its first letter
    have hnone : (vfs.mounts.find? fun mp => Captures '/' mp.mountpoint path) = none := by
      rw [List.find?_eq_none]
      intro mp hmp h
      exact hcapture ⟨mp, hmp, by simpa using h⟩
    rw [bestMount, findMount_eq, hnone] at hbest
    simp only [Option.none_or] at hbest
    have hroot : mp.mountpoint = ['/'] := by simpa using List.find?_some hbest
    cases path with
    | nil => exact Or.inl rfl
    | cons a path =>
        by_cases ha : a = '/'
        · have hmem := List.mem_of_find?_eq_some hbest
          refine (hcapture ⟨mp, hmem, ?_⟩).elim
          rw [hroot, ha]
          exact captures_root path
        · simp only [walkedNames, hroot, List.length_singleton, List.drop_one, List.tail_cons,
            components_sep_cons, components_nil, List.nil_append] at hcomponents
          exact (components_cons_ne path ha hcomponents).elim

theorem matchesReference_of_wellSpelled {vfs : VFS ρ F} {path : Str} {ref : ρ} {ino : Int}
    (hvfs : MountsOk vfs) (hpath : WellSpelled vfs path)
    (h : vfs.resolve? path = some (ref, ino)) : MatchesReference vfs path ref ino := by
  obtain ⟨hresolve, hino⟩ := resolve?_eq_some.mp h
  cases hbest : vfs.bestMount path with
  | none => simp [resolvePath, hbest] at hresolve
  | some mp =>
      obtain ⟨-, hlongest, hcomponents⟩ := components_of_wellSpelled hvfs hpath hbest
      rw [resolvePath_of_bestMount hbest] at hresolve
      obtain ⟨href, hwalk⟩ := Prod.mk.inj hresolve
      obtain rfl := Option.some.inj href
      refine ⟨mp, hbest, rfl, hcomponents, ?_, hlongest⟩
      cases hresult : walk (vfs.filesystems mp.fs)
          (Filesystem.rootIno (vfs.filesystems mp.fs)) (walkedNames mp path) with
      | none =>
          rw [hresult] at hwalk
          change (-2 : Int) = ino at hwalk
          omega
      | some ino' =>
          rw [hresult] at hwalk
          exact congrArg some hwalk

theorem resolvePath_congr {vfs : VFS ρ F} (hvfs : MountsOk vfs) {path path' : Str}
    (hpath : WellSpelled vfs path) (hpath' : WellSpelled vfs path')
    (h : components '/' path = components '/' path') :
    vfs.resolvePath path = vfs.resolvePath path' := by
  have hsame : vfs.bestMount path = vfs.bestMount path' := by
    rw [bestMount_of_wellSpelled hvfs hpath, bestMount_of_wellSpelled hvfs hpath']
    refine congrArg (fun p => vfs.mounts.find? p) (funext fun mp => decide_eq_decide.mpr ?_)
    unfold Covers
    rw [h]
  cases hbest : vfs.bestMount path with
  | none => simp only [resolvePath, ← hsame, hbest]
  | some mp =>
      have hbest' : vfs.bestMount path' = some mp := hsame ▸ hbest
      have hnames : walkedNames mp path = walkedNames mp path' := by
        have hleft := (components_of_wellSpelled hvfs hpath hbest).2.2
        have hright := (components_of_wellSpelled hvfs hpath' hbest').2.2
        rw [hleft, hright] at h
        exact List.append_cancel_left h
      rw [resolvePath_of_bestMount hbest, resolvePath_of_bestMount hbest', hnames]

/-- Successful resolution follows the component reference exactly on the
well-spelled paths, and there it depends on the components only. -/
theorem resolve_matches_iff (filesystems : ρ → F) (calls : List (MountPoint ρ))
    (hcalls : ∀ mp ∈ calls, Normalized '/' mp.mountpoint) :
    let vfs := (init filesystems).mountAll calls
    (∀ path ref ino, vfs.resolve? path = some (ref, ino) →
      (MatchesReference vfs path ref ino ↔ WellSpelled vfs path)) ∧
    (∀ path path', WellSpelled vfs path → WellSpelled vfs path' →
      components '/' path = components '/' path' →
      vfs.resolvePath path = vfs.resolvePath path') := by
  intro vfs
  have hvfs : MountsOk vfs := mountsOk_mountAll filesystems hcalls
  refine ⟨fun path ref ino h => ⟨wellSpelled_of_matchesReference hvfs, fun hpath => ?_⟩,
    fun path path' => resolvePath_congr hvfs⟩
  exact matchesReference_of_wellSpelled hvfs hpath h

def tcRoot : VFS Unit TmpFS :=
  (init fun _ => (TmpFS.init.create 1 "tc".toList .file).2).mountAll
    [⟨"/".toList, (), "none".toList⟩]

/-- The relative path `etc` resolves to the file `/tc`, and `/etc` to nothing. -/
theorem relative_path_loses_letter :
    tcRoot.resolve? "etc".toList = some ((), 2) ∧
    ¬ MatchesReference tcRoot "etc".toList () 2 ∧
    components '/' "etc".toList = components '/' "/etc".toList ∧
    tcRoot.resolve? "/etc".toList = none := by
  refine ⟨by decide, ?_, by decide, by decide⟩
  rintro ⟨mp, hbest, -, hcomponents, -, -⟩
  have hroot : tcRoot.bestMount "etc".toList = some ⟨"/".toList, (), "none".toList⟩ := by
    decide
  rw [hroot] at hbest
  cases hbest
  exact absurd hcomponents (by decide)

theorem resolve_matches_iff_tcRoot :
    (∀ mp ∈ [(⟨"/".toList, (), "none".toList⟩ : MountPoint Unit)],
      Normalized '/' mp.mountpoint) ∧
    (MatchesReference tcRoot "/tc".toList () 2 ↔ WellSpelled tcRoot "/tc".toList) := by
  have hcalls : ∀ mp ∈ [(⟨"/".toList, (), "none".toList⟩ : MountPoint Unit)],
      Normalized '/' mp.mountpoint := by
    intro mp hmp
    rw [List.mem_singleton.mp hmp]
    exact Or.inl rfl
  exact ⟨hcalls, (resolve_matches_iff (fun _ : Unit => (TmpFS.init.create 1 "tc".toList .file).2)
    _ hcalls).1 "/tc".toList () 2 (by decide)⟩

/-- Mount order does not matter: on a normalized path the longest cover is chosen,
exactly the remaining components are walked, and every permutation of the mount
calls gives the same result. -/
theorem resolvePath_perm (filesystems : ρ → F) {calls calls' : List (MountPoint ρ)}
    (hcalls : ∀ mp ∈ calls, Normalized '/' mp.mountpoint)
    (hdistinct : (calls.map MountPoint.mountpoint).Nodup) (hperm : calls.Perm calls')
    {path : Str} (hpath : Normalized '/' path) :
    let vfs := (init filesystems).mountAll calls
    (∀ mp, vfs.bestMount path = some mp ↔ mp ∈ calls ∧ LongestCover calls path mp) ∧
    (∀ mp rest, vfs.bestMount path = some mp →
      components '/' path = components '/' mp.mountpoint ++ rest →
      vfs.resolvePath path = (some mp.fs,
        (walk (filesystems mp.fs) (Filesystem.rootIno (filesystems mp.fs)) rest).getD (-2))) ∧
    (vfs.bestMount path = none → vfs.resolvePath path = (none, -2)) ∧
    ((init filesystems).mountAll calls').resolvePath path = vfs.resolvePath path := by
  have hchosen := bestMount_iff_longestCover filesystems hcalls hdistinct hpath
  have hvfs := mountsOk_mountAll filesystems hcalls
  have hspelled := wellSpelled_of_normalized hvfs hpath
  refine ⟨hchosen, fun mp rest hbest hrest => ?_, fun hnone => ?_, ?_⟩
  · have hnames := (components_of_wellSpelled hvfs hspelled hbest).2.2
    rw [hrest] at hnames
    rw [resolvePath_of_bestMount hbest, filesystems_mountAll,
      ← List.append_cancel_left hnames]
    rfl
  · simp only [resolvePath, hnone]
  · have hcalls' : ∀ mp ∈ calls', Normalized '/' mp.mountpoint := fun mp hmp =>
      hcalls mp (hperm.mem_iff.mpr hmp)
    have hdistinct' := (hperm.map MountPoint.mountpoint).nodup_iff.mp hdistinct
    have hchosen' := bestMount_iff_longestCover filesystems hcalls' hdistinct' hpath
    have hsame : ((init filesystems).mountAll calls').bestMount path =
        ((init filesystems).mountAll calls).bestMount path := by
      apply Option.ext
      intro mp
      rw [hchosen mp, hchosen' mp]
      simp only [LongestCover, hperm.mem_iff]
    simp only [resolvePath, hsame, filesystems_mountAll]

/-- `/mnt` does not capture `/mntx`, in whichever order it was mounted. -/
theorem resolvePath_perm_mnt :
    let filesystems : Bool → TmpFS := fun _ => (TmpFS.init.create 1 "mntx".toList .dir).2
    let root : MountPoint Bool := ⟨"/".toList, false, "none".toList⟩
    let mnt : MountPoint Bool := ⟨"/mnt".toList, true, "none".toList⟩
    ((init filesystems).mountAll [root, mnt]).resolvePath "/mntx".toList = (some false, 2) ∧
    ((init filesystems).mountAll [mnt, root]).resolvePath "/mntx".toList =
      ((init filesystems).mountAll [root, mnt]).resolvePath "/mntx".toList := by
  intro filesystems root mnt
  have hcalls : ∀ mp ∈ [root, mnt], Normalized '/' mp.mountpoint := by
    simp only [List.mem_cons, List.not_mem_nil, or_false, forall_eq_or_imp, forall_eq]
    exact ⟨Or.inl rfl, Or.inr ⟨"mnt".toList, rfl, by decide⟩⟩
  have hpath : Normalized '/' "/mntx".toList := Or.inr ⟨"mntx".toList, rfl, by decide⟩
  exact ⟨by decide, (resolvePath_perm filesystems hcalls (by decide)
    (List.Perm.swap mnt root []) hpath).2.2.2⟩

end Filesystem

end ComputeKernel.Vfs.VFS
