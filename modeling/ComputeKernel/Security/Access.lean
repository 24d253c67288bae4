import ComputeKernel.Security.Credentials
import ComputeKernel.Vfs.Names

/-!
# Restricted paths

The check compares the text of a path with a list, while the VFS follows the names in it.
An inode is protected only against the spellings on the list.
-/

namespace ComputeKernel.Security

open Fs Tasks Vfs

def restricted : List Str :=
  ["/proc/kcore".toList, "/dev/mem".toList, "/dev/port".toList]

def checkVfsOpen (creds : Credentials) (path : Str) (_write : Bool) : Bool :=
  if creds.isRoot then true
  else if restricted.contains path then false
  else true

theorem checkVfsOpen_eq_false {creds : Credentials} (path : Str) (write : Bool) :
    checkVfsOpen creds path write = false ↔ creds.euid ≠ 0 ∧ path ∈ restricted := by
  unfold checkVfsOpen Credentials.isRoot
  by_cases hroot : creds.euid = 0
  · simp [hroot]
  · by_cases hpath : path ∈ restricted
    · simp [hroot, hpath]
    · simp [hroot, hpath]

variable {ρ : Type}

def RefusesRestricted (vfs : VFS ρ Volume) (creds : Credentials) (path : Str) : Prop :=
  ∀ listed ∈ restricted, ∀ found, vfs.resolve? listed = some found →
    vfs.resolve? path = some found → ∀ write, checkVfsOpen creds path write = false

/-- The path is on the list, or its names are not those of a path on the list that
exists. -/
def PlainlySpelled (vfs : VFS ρ Volume) (path : Str) : Prop :=
  path ∈ restricted ∨
    ∀ listed ∈ restricted, (vfs.resolve? listed).isSome → vfs.names path ≠ vfs.names listed

instance [DecidableEq ρ] (vfs : VFS ρ Volume) (path : Str) :
    Decidable (PlainlySpelled vfs path) :=
  inferInstanceAs (Decidable (_ ∨ _))

/-- In every state of a VFS with volumes of either driver, the check protects the restricted
files exactly against the paths that are on the list or have other names. -/
theorem refusesRestricted_iff [DecidableEq ρ] (kinds : ρ → Volume.Kind)
    (requests : List (VFS.Request ρ)) {creds : Credentials} (h : creds.euid ≠ 0) (path : Str) :
    RefusesRestricted (VFS.served kinds requests) creds path ↔
      PlainlySpelled (VFS.served kinds requests) path := by
  have hnames : ∀ {listed found}, (VFS.served kinds requests).resolve? listed = some found →
      ((VFS.served kinds requests).resolve? path = some found ↔
        (VFS.served kinds requests).names path = (VFS.served kinds requests).names listed) :=
    VFS.resolve?_eq_iff_names (VFS.namesOnce_served kinds requests)
  constructor
  · intro hrefuses
    apply or_iff_not_imp_left.mpr
    intro hpath listed hlisted hexists hsame
    obtain ⟨found, hfound⟩ := Option.isSome_iff_exists.mp hexists
    have hrefused := hrefuses listed hlisted found hfound ((hnames hfound).mpr hsame) false
    exact hpath ((checkVfsOpen_eq_false path false).mp hrefused).2
  · intro hspelled listed hlisted found hfound hresolve write
    apply (checkVfsOpen_eq_false path write).mpr
    refine ⟨h, ?_⟩
    rcases hspelled with hpath | hother
    · exact hpath
    · exact absurd ((hnames hfound).mp hresolve)
        (hother listed hlisted (Option.isSome_iff_exists.mpr ⟨found, hfound⟩))

def kcoreRequests : List (VFS.Request Unit) :=
  [.call (.mount "/".toList () "tmpfs".toList), .call (.mkdir "/proc".toList),
    .call (.createFile "/proc/kcore".toList [])]

theorem refusesRestricted_kcore :
    let creds : Credentials := { uid := 1000, gid := 1000, euid := 1000, egid := 1000 }
    creds.euid ≠ 0 ∧
      RefusesRestricted (VFS.served (fun _ => .tmpfs) kcoreRequests) creds
        "/proc/kcore".toList := by
  intro creds
  exact ⟨by decide,
    (refusesRestricted_iff (fun _ => .tmpfs) kcoreRequests (by decide) _).mpr (by decide)⟩

/-- One more slash, or another first letter, and the file is open to everyone. -/
theorem kcore_readable :
    let creds : Credentials := { uid := 1000, gid := 1000, euid := 1000, egid := 1000 }
    let vfs := VFS.served (fun _ => .tmpfs) kcoreRequests
    vfs.resolve? "/proc/kcore".toList = some ((), 3) ∧
    vfs.resolve? "/proc//kcore".toList = some ((), 3) ∧
    vfs.resolve? "xproc/kcore".toList = some ((), 3) ∧
    checkVfsOpen creds "/proc/kcore".toList false = false ∧
    checkVfsOpen creds "/proc//kcore".toList false = true ∧
    checkVfsOpen creds "xproc/kcore".toList false = true ∧
    ¬ RefusesRestricted vfs creds "/proc//kcore".toList := by
  intro creds vfs
  have hlisted : vfs.resolve? "/proc/kcore".toList = some ((), 3) := by decide
  have halias : vfs.resolve? "/proc//kcore".toList = some ((), 3) := by decide
  have hallowed : checkVfsOpen creds "/proc//kcore".toList false = true := by decide
  refine ⟨hlisted, halias, by decide, by decide, hallowed, by decide, ?_⟩
  intro hrefuses
  have hrefused := hrefuses _ List.mem_cons_self _ hlisted halias false
  rw [hallowed] at hrefused
  cases hrefused

end ComputeKernel.Security
