import ComputeKernel.Vfs.Positions

/-!
# Calls that change nothing

A read changes nothing when it gets no bytes, a write when it stores none, and `close` when
there is nothing to close.
-/

namespace ComputeKernel.Vfs.VFS

open Lib Fs

variable {vfs : VFS Unit TmpFS} {fd : Int} {file : OpenFile}

/-- A read of this size gets some bytes: its descriptor is open on a regular file and before
its end, or the size counts back over the position and not over the whole file. -/
def Readable (vfs : VFS Unit TmpFS) (fd size : Int) : Prop :=
  ∃ file inode, vfs.openFiles.get? fd = some file ∧
    (vfs.filesystems ()).inodes.get? file.ino = some inode ∧ inode.itype = .file ∧
    ((0 < size ∧ file.position < inode.data.length) ∨
      (file.position + size < 0 ∧ 0 < inode.data.length + size))

def Regular (vfs : VFS Unit TmpFS) (fd : Int) : Prop :=
  ∃ file inode, vfs.openFiles.get? fd = some file ∧
    (vfs.filesystems ()).inodes.get? file.ino = some inode ∧ inode.itype = .file

theorem advance_eq_self_iff (hfile : vfs.openFiles.get? fd = some file) (n : Int) :
    vfs.advance fd n = vfs ↔ n = 0 := by
  constructor
  · intro hsame
    have hmoved := get?_advance vfs fd n fd
    rw [hsame, hfile, Option.map_some, if_pos rfl, Option.some.injEq] at hmoved
    have hposition := congrArg OpenFile.position hmoved
    change file.position = file.position + n at hposition
    omega
  · rintro rfl
    exact advance_zero vfs fd

theorem splice_nil {inode : Inode} (hsize : inode.size = inode.data.length) {position : Int}
    (hlow : 0 ≤ position) (hhigh : position ≤ inode.data.length) :
    inode.splice position [] = inode := by
  unfold Inode.splice
  rw [spliceAt_nil inode.data hlow hhigh]
  dsimp only
  rw [← hsize]

namespace Placed

theorem read_eq_self_iff (h : Placed vfs) (hfile : vfs.openFiles.get? fd = some file)
    (size : Int) : (vfs.read fd size).2 = vfs ↔ ¬ vfs.Readable fd size := by
  obtain ⟨inode, hget, hlow, hhigh⟩ := h.stands fd file hfile
  rw [h.ready.rooted.read_eq hfile, advance_eq_self_iff hfile, Int.natCast_eq_zero,
    List.length_eq_zero_iff, TmpFS.read, InodeTable.read, hget]
  dsimp only
  by_cases hregular : inode.itype = .file
  · rw [if_neg (not_not.mpr hregular), slice_eq_nil_iff inode.data hlow hhigh, ← not_or]
    refine not_congr ⟨fun hsome => ⟨file, inode, hfile, hget, hregular, hsome⟩, ?_⟩
    rintro ⟨file', inode', hfile', hget', -, hsome⟩
    cases hfile.symm.trans hfile'
    cases hget.symm.trans hget'
    exact hsome
  · rw [if_pos hregular]
    refine iff_of_true rfl ?_
    rintro ⟨file', inode', hfile', hget', hregular', -⟩
    cases hfile.symm.trans hfile'
    cases hget.symm.trans hget'
    exact hregular hregular'

theorem write_nil (h : Placed vfs) (hfile : vfs.openFiles.get? fd = some file) {inode : Inode}
    (hget : (vfs.filesystems ()).inodes.get? file.ino = some inode)
    (hregular : inode.itype = .file) : (vfs.write fd []).2 = vfs := by
  obtain ⟨inode', hget', hlow, hhigh⟩ := h.stands fd file hfile
  cases hget.symm.trans hget'
  have hsame : (vfs.filesystems ()).update file.ino (fun inode => inode.splice file.position []) =
      vfs.filesystems () := by
    unfold TmpFS.update
    rw [Dict.modify_of_get? _ hget, splice_nil (h.ready.rooted.inv.size hget) hlow hhigh,
      Dict.set_eq_self hget]
  rw [h.ready.rooted.write_eq hfile hget hregular, hsame, setFs_self]
  exact advance_zero vfs fd

theorem write_eq_self_iff (h : Placed vfs) (hfile : vfs.openFiles.get? fd = some file)
    (data : Bytes) : (vfs.write fd data).2 = vfs ↔ data = [] ∨ ¬ vfs.Regular fd := by
  obtain ⟨inode, hget, -, -⟩ := h.stands fd file hfile
  by_cases hregular : inode.itype = .file
  · rw [or_iff_left (not_not.mpr ⟨file, inode, hfile, hget, hregular⟩)]
    constructor
    · intro hsame
      rw [h.ready.rooted.write_eq hfile hget hregular] at hsame
      -- the position has moved by the length of the data
      have hmoved := congrArg (fun vfs => vfs.openFiles.get? fd) hsame
      dsimp only at hmoved
      rw [get?_advance] at hmoved
      change (vfs.openFiles.get? fd).map _ = _ at hmoved
      rw [hfile, Option.map_some, if_pos rfl, Option.some.injEq] at hmoved
      have hposition := congrArg OpenFile.position hmoved
      change file.position + data.length = file.position at hposition
      exact List.length_eq_zero_iff.mp (by omega)
    · rintro rfl
      exact h.write_nil hfile hget hregular
  · have hother : ∀ inode', (vfs.filesystems ()).inodes.get? file.ino = some inode' →
        inode'.itype ≠ .file := by
      intro inode' hget'
      cases hget.symm.trans hget'
      exact hregular
    refine iff_of_true (h.ready.rooted.write_of_not_file hfile hother data).1 (Or.inr ?_)
    rintro ⟨file', inode', hfile', hget', hregular'⟩
    cases hfile.symm.trans hfile'
    exact hother inode' hget' hregular'

end Placed

theorem close_eq_self_iff (vfs : VFS Unit TmpFS) (fd : Int) :
    (vfs.close fd).2 = vfs ↔ fd ∉ vfs.openFiles := by
  constructor
  · intro hsame hopen
    rw [← hsame, mem_openFiles_close] at hopen
    exact hopen.1 rfl
  · intro hclosed
    unfold close
    rw [Dict.get?_eq_none.mpr hclosed]

end ComputeKernel.Vfs.VFS
