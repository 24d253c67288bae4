import ComputeKernel.Lib.StableSort
import ComputeKernel.Vfs.Resolution

/-!
# Mounting at a mount point that is taken

The mount list is kept sorted, and equally long mount points stay in the order in which
they were mounted.  The loop takes the first mount it sees, so at a mount point that was
mounted again the oldest mount answers.
-/

namespace ComputeKernel.Vfs.VFS

open Lib Lib.Path Fs

variable {ρ F : Type}

instance (mounts : List (MountPoint ρ)) (path : Str) :
    DecidablePred (LongestCover mounts path) := fun _ =>
  inferInstanceAs (Decidable (_ ∧ ∀ other ∈ mounts, Covers path other → _))

theorem mountAll_concat (vfs : VFS ρ F) (calls : List (MountPoint ρ)) (mp : MountPoint ρ) :
    vfs.mountAll (calls ++ [mp]) =
      (vfs.mountAll calls).mount mp.mountpoint mp.fs mp.source :=
  List.foldl_append

theorem find?_mountAll (filesystems : ρ → F) {p : MountPoint ρ → Bool}
    {calls : List (MountPoint ρ)}
    (hp : ∀ left ∈ calls, ∀ right ∈ calls, p left → p right →
      left.mountpoint.length = right.mountpoint.length) :
    ((init filesystems).mountAll calls).mounts.find? p = calls.find? p := by
  induction calls using List.reverseRecOn with
  | nil => rfl
  | append_singleton calls mp ih =>
      have hsorted := sorted_mountAll (init filesystems) List.Pairwise.nil calls
      have hprev := ih fun left hleft right hright =>
        hp left (List.mem_append_left _ hleft) right (List.mem_append_left _ hright)
      rw [mountAll_concat, mount]
      change (List.insertionSort MountPoint.LongerFirst
        (((init filesystems).mountAll calls).mounts ++ [mp])).find? p = _
      rw [StableSort.find?_insertionSort_concat hsorted, hprev, List.find?_append]
      cases hfound : calls.find? p with
      | none => by_cases hmp : p mp <;> simp [hmp]
      | some first =>
          by_cases hmp : p mp
          · have hlength := hp first (List.mem_append_left _ (List.mem_of_find?_eq_some hfound))
              mp (List.mem_append_right _ List.mem_cons_self) (List.find?_some hfound) hmp
            have hbefore : first.LongerFirst mp := Nat.le_of_eq hlength.symm
            simp [Option.filter, hbefore]
          · by_cases hbefore : first.LongerFirst mp <;> simp [Option.filter, hbefore, hmp]

theorem bestMount_mountAll (filesystems : ρ → F) {calls : List (MountPoint ρ)}
    (hcalls : ∀ mp ∈ calls, Normalized '/' mp.mountpoint) {path : Str}
    (hpath : Normalized '/' path) :
    ((init filesystems).mountAll calls).bestMount path =
      calls.find? fun mp => LongestCover calls path mp := by
  have hvfs := mountsOk_mountAll filesystems hcalls
  have hlongest : ∀ mp, LongestCover ((init filesystems).mountAll calls).mounts path mp ↔
      LongestCover calls path mp := by
    intro mp
    simp only [LongestCover, mem_mounts_mountAll]
  have hsame : ∀ left ∈ calls, ∀ right ∈ calls,
      decide (LongestCover calls path left) = true →
      decide (LongestCover calls path right) = true →
      left.mountpoint.length = right.mountpoint.length := by
    intro left hleft right hright hl hr
    exact congrArg List.length ((of_decide_eq_true hl).mountpoint_eq (of_decide_eq_true hr)
      hleft hright (hcalls left hleft) (hcalls right hright))
  rw [bestMount_of_wellSpelled hvfs (wellSpelled_of_normalized hvfs hpath),
    ← find?_mountAll filesystems hsame]
  cases hfound : ((init filesystems).mountAll calls).mounts.find? fun mp => Covers path mp with
  | none =>
      symm
      rw [List.find?_eq_none] at hfound ⊢
      intro mp hmp hcover
      apply hfound mp hmp
      simpa using (of_decide_eq_true hcover).1
  | some mp =>
      obtain ⟨-, hcover⟩ := hvfs.longestCover_of_find? hfound
      obtain ⟨-, before, after, hsplit, hbefore⟩ := List.find?_eq_some_iff_append.mp hfound
      symm
      rw [List.find?_eq_some_iff_append]
      refine ⟨by simpa using (hlongest mp).mp hcover, before, after, hsplit, ?_⟩
      intro first hfirst
      have hnot : ¬ Covers path first := by simpa using hbefore first hfirst
      simpa using fun hlong : LongestCover calls path first => hnot hlong.1

def mostRecent (calls : List (MountPoint ρ)) (path : Str) : Option (MountPoint ρ) :=
  calls.reverse.find? fun mp => LongestCover calls path mp

def OldestIsNewest (calls : List (MountPoint ρ)) (path : Str) : Prop :=
  ∀ first last, calls.find? (fun mp => LongestCover calls path mp) = some first →
    mostRecent calls path = some last → first.fs = last.fs

section Filesystem

variable [Filesystem F]

/-- A path resolves in the filesystem most recently mounted at the longest mount point
above it exactly if that one was also the first to be mounted there.  So a mount takes
effect at once unless its mount point holds another filesystem already. -/
theorem resolves_in_mostRecent_iff (filesystems : ρ → F) {calls : List (MountPoint ρ)}
    (hcalls : ∀ mp ∈ calls, Normalized '/' mp.mountpoint) {path : Str}
    (hpath : Normalized '/' path) :
    ((((init filesystems).mountAll calls).resolvePath path).1 =
        (mostRecent calls path).map MountPoint.fs ↔ OldestIsNewest calls path) ∧
    ∀ earlier mp, calls = earlier ++ [mp] → LongestCover calls path mp →
      ((((init filesystems).mountAll calls).resolvePath path).1 = some mp.fs ↔
        ∀ first, (earlier.find? fun other => LongestCover calls path other) = some first →
          first.fs = mp.fs) := by
  have hbest := bestMount_mountAll filesystems hcalls hpath
  rw [resolvePath_fst, fsOf, hbest]
  constructor
  · have hsome : (calls.find? fun mp => LongestCover calls path mp).isSome =
        (mostRecent calls path).isSome := by
      rw [Bool.eq_iff_iff]
      simp only [mostRecent, List.find?_isSome, List.mem_reverse]
    unfold OldestIsNewest
    unfold mostRecent at *
    generalize (calls.find? fun mp => LongestCover calls path mp) = first at *
    generalize (calls.reverse.find? fun mp => LongestCover calls path mp) = last at *
    cases first with
    | none => cases last <;> simp_all
    | some first => cases last <;> simp_all
  · rintro earlier mp hsplit hcover
    have hlast : calls.find? (fun other => LongestCover calls path other) =
        (earlier.find? fun other => LongestCover calls path other).or (some mp) := by
      conv_lhs => arg 2; rw [hsplit]
      rw [List.find?_append, List.find?_cons_of_pos (by simpa using hcover)]
    rw [hlast]
    cases earlier.find? fun other => LongestCover calls path other <;> simp

/-- The second filesystem mounted at `/mnt` is never seen. -/
theorem second_mount_hidden :
    let calls : List (MountPoint Bool) :=
      [⟨"/mnt".toList, false, "none".toList⟩, ⟨"/mnt".toList, true, "none".toList⟩]
    (((init fun _ => TmpFS.init).mountAll calls).resolvePath "/mnt".toList).1 ≠
      (mostRecent calls "/mnt".toList).map MountPoint.fs := by
  decide

theorem resolves_in_mostRecent_mnt :
    let calls : List (MountPoint Bool) :=
      [⟨"/".toList, false, "none".toList⟩, ⟨"/mnt".toList, true, "none".toList⟩]
    (((init fun _ => TmpFS.init).mountAll calls).resolvePath "/mnt".toList).1 =
      (mostRecent calls "/mnt".toList).map MountPoint.fs := by
  intro calls
  have hcalls : ∀ mp ∈ calls, Normalized '/' mp.mountpoint := by
    simp only [calls, List.mem_cons, List.not_mem_nil, or_false, forall_eq_or_imp, forall_eq]
    exact ⟨Or.inl rfl, Or.inr ⟨"mnt".toList, rfl, by decide⟩⟩
  have hpath : Normalized '/' "/mnt".toList := Or.inr ⟨"mnt".toList, rfl, by decide⟩
  apply (resolves_in_mostRecent_iff (fun _ : Bool => TmpFS.init) hcalls hpath).1.mpr
  rintro first last hfirst hlast
  have hmnt : calls.find? (fun mp => LongestCover calls "/mnt".toList mp) =
      mostRecent calls "/mnt".toList := by decide
  rw [hmnt, hlast] at hfirst
  cases hfirst
  rfl

end Filesystem

end ComputeKernel.Vfs.VFS
