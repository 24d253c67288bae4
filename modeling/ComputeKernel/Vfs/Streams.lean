import ComputeKernel.Vfs.Creation
import ComputeKernel.Vfs.Resolution

/-!
# A file as a stream

One descriptor writes to a regular file of a tmpfs, another reads from it.  Each has its
own position, so the file holds what was written, and the reader has seen a front part
of it.
-/

namespace ComputeKernel.Vfs

open Lib Lib.Path Fs

theorem spliceAt_length (old data : Bytes) : spliceAt old old.length data = old ++ data := by
  rw [spliceAt, if_neg (Int.lt_irrefl _), sliceTo_of_nonneg old (Int.natCast_nonneg _),
    sliceFrom_of_nonneg old (by omega), Int.toNat_natCast, List.take_length,
    List.drop_eq_nil_of_le (by omega), List.append_nil]

namespace VFS

structure OpenAt (vfs : VFS Unit TmpFS) (fd ino position : Int) : Prop where
  file : ∃ file, vfs.openFiles.get? fd = some file ∧ file.ino = ino ∧
    file.position = position ∧ vfs.fsOf file.path = some ()

theorem OpenAt.advance {vfs : VFS Unit TmpFS} {fd ino position : Int}
    (h : OpenAt vfs fd ino position) (n : Int) :
    OpenAt (vfs.advance fd n) fd ino (position + n) := by
  obtain ⟨file, hfile, hino, hposition, hfs⟩ := h.file
  have hget : (vfs.advance fd n).openFiles.get? fd =
      some { file with position := file.position + n } := by
    simp [VFS.advance, Dict.get?_modify, hfile]
  exact ⟨_, hget, hino, congrArg (· + n) hposition, hfs⟩

theorem OpenAt.advance_other {vfs : VFS Unit TmpFS} {fd other ino position : Int}
    (h : OpenAt vfs fd ino position) (hne : fd ≠ other) (n : Int) :
    OpenAt (vfs.advance other n) fd ino position := by
  obtain ⟨file, hfile, hrest⟩ := h.file
  have hget : (vfs.advance other n).openFiles.get? fd = some file := by
    rw [VFS.advance, Dict.get?_modify_of_ne _ _ hne, hfile]
  exact ⟨file, hget, hrest⟩

def HasFile (vfs : VFS Unit TmpFS) (ino : Int) (data : Bytes) : Prop :=
  ∃ inode, (vfs.filesystems ()).inodes.get? ino = some inode ∧ inode.itype = .file ∧
    inode.data = data

theorem read_openAt {vfs : VFS Unit TmpFS} {fd ino : Int} {position : Nat} {data : Bytes}
    (hfd : OpenAt vfs fd ino position) (hfile : vfs.HasFile ino data) (n : Nat) :
    vfs.read fd n =
      ((data.drop position).take n, vfs.advance fd ((data.drop position).take n).length) := by
  obtain ⟨file, hopen, rfl, hposition, hfs⟩ := hfd.file
  obtain ⟨inode, hinode, hregular, rfl⟩ := hfile
  have hread : Filesystem.read (vfs.filesystems ()) file.ino file.position n =
      (inode.data.drop position).take n := by
    change InodeTable.read _ _ _ _ = _
    rw [InodeTable.read, hinode, hposition]
    simp only [hregular, ne_eq, not_true, if_false]
    rw [slice_of_nonneg _ (Int.natCast_nonneg _) (by omega), List.drop_take]
    congr 1
    omega
  unfold VFS.read
  simp only [hopen, resolvePath_fst, hfs, hread]

theorem write_openAt {vfs : VFS Unit TmpFS} {fd ino : Int} {data : Bytes}
    (hfd : OpenAt vfs fd ino data.length) (hfile : vfs.HasFile ino data) (chunk : Bytes) :
    ∃ fs, (vfs.setFs () fs).HasFile ino (data ++ chunk) ∧
      vfs.write fd chunk = ((chunk.length : Int),
        if (chunk.length : Int) > 0 then (vfs.setFs () fs).advance fd chunk.length
        else vfs.setFs () fs) := by
  obtain ⟨file, hopen, rfl, hposition, hfs⟩ := hfd.file
  obtain ⟨inode, hinode, hregular, rfl⟩ := hfile
  obtain ⟨fs, hwrite, hinodes⟩ : ∃ fs,
      Filesystem.write (vfs.filesystems ()) file.ino file.position chunk =
        ((chunk.length : Int), fs) ∧
      fs.inodes = (vfs.filesystems ()).inodes.set file.ino
        (inode.splice inode.data.length chunk) := by
    refine ⟨⟨_, (vfs.filesystems ()).nextIno⟩, ?_, rfl⟩
    change TmpFS.write _ _ _ _ = _
    simp only [TmpFS.write, InodeTable.write, hinode, hregular, hposition, ne_eq, not_true,
      if_false]
    rfl
  refine ⟨fs, ⟨inode.splice inode.data.length chunk, ?_, hregular, ?_⟩, ?_⟩
  · simp [setFs, hinodes]
  · rw [Inode.splice_data, spliceAt_length]
  · unfold VFS.write
    simp only [hopen, resolvePath_fst, hfs, hwrite]

def freshFile (fd : Int) (path : Str) (ino : Int) (flags : Str) : OpenFile where
  fd := fd
  path := path
  ino := ino
  flags := flags
  position := 0
  fsName := "tmpfs".toList

theorem Rooted.hasFile {vfs : VFS Unit TmpFS} (h : Rooted vfs) {path : Str} {inode : Inode}
    (hstat : vfs.stat path = some inode) (hregular : inode.itype = .file) :
    vfs.HasFile inode.ino inode.data := by
  unfold stat at hstat
  split at hstat
  · cases hstat
  · obtain rfl := (h.inv.keyed hstat).1
    exact ⟨inode, hstat, hregular, rfl⟩

theorem fsOf_of_mounts {vfs : VFS Unit TmpFS} {source : Str}
    (hmounts : vfs.mounts = [⟨['/'], (), source⟩]) (path : Str) : vfs.fsOf path = some () := by
  have hbest : vfs.bestMount path = some ⟨['/'], (), source⟩ := by
    rw [bestMount, hmounts, findMount]
    split
    · rfl
    · rw [if_pos ⟨rfl, rfl⟩, findMount]
  rw [fsOf, hbest]
  rfl

end VFS

/-- The bytes given to the writer and those that the reader was given. -/
structure Stream where
  vfs : VFS Unit TmpFS
  written : Bytes
  received : Bytes

namespace Stream

inductive Op
  | write (chunk : Bytes)
  | read (n : Nat)

def start (vfs : VFS Unit TmpFS) : Stream :=
  ⟨vfs, [], []⟩

def step (fdW fdR : Int) (s : Stream) : Op → Stream
  | .write chunk =>
      { s with vfs := (s.vfs.write fdW chunk).2, written := s.written ++ chunk }
  | .read n =>
      { s with vfs := (s.vfs.read fdR n).2, received := s.received ++ (s.vfs.read fdR n).1 }

/-- The file holds what was written; the writer stands at its end, and the reader behind
what it has received. -/
structure Flows (fdW fdR ino : Int) (s : Stream) : Prop where
  file : s.vfs.HasFile ino s.written
  writer : s.vfs.OpenAt fdW ino s.written.length
  reader : s.vfs.OpenAt fdR ino s.received.length
  received : s.received <+: s.written

theorem Flows.read {fdW fdR ino : Int} {s : Stream} (h : Flows fdW fdR ino s) (n : Nat) :
    s.vfs.read fdR n = ((s.written.drop s.received.length).take n,
      s.vfs.advance fdR ((s.written.drop s.received.length).take n).length) :=
  VFS.read_openAt h.reader h.file n

theorem flows_step {fdW fdR ino : Int} (hne : fdW ≠ fdR) (s : Stream) (op : Op)
    (h : Flows fdW fdR ino s) : Flows fdW fdR ino (s.step fdW fdR op) := by
  cases op with
  | read n =>
      obtain ⟨rest, hrest⟩ := h.received
      have hread := h.read n
      simp only [step, hread]
      refine ⟨h.file, h.writer.advance_other hne _, ?_, ?_⟩
      · have hreader := h.reader.advance
          (((s.written.drop s.received.length).take n).length : Int)
        dsimp only
        rw [List.length_append, Int.natCast_add]
        exact hreader
      · dsimp only
        rw [← hrest, List.drop_left, List.prefix_append_right_inj]
        exact List.take_prefix n rest
  | write chunk =>
      obtain ⟨fs, hfile, hwrite⟩ := VFS.write_openAt h.writer h.file chunk
      have hprefix : s.received <+: s.written ++ chunk :=
        h.received.trans (List.prefix_append _ _)
      have hwriter : (s.vfs.setFs () fs).OpenAt fdW ino s.written.length := ⟨h.writer.file⟩
      have hreader : (s.vfs.setFs () fs).OpenAt fdR ino s.received.length := ⟨h.reader.file⟩
      simp only [step, hwrite]
      split
      · have hmoved := hwriter.advance (chunk.length : Int)
        refine ⟨hfile, ?_, hreader.advance_other hne.symm _, hprefix⟩
        dsimp only
        rw [List.length_append, Int.natCast_add]
        exact hmoved
      · rename_i hempty
        obtain rfl : chunk = [] := List.eq_nil_of_length_eq_zero (by omega)
        refine ⟨hfile, ?_, hreader, hprefix⟩
        dsimp only
        rw [List.append_nil]
        exact hwriter

/-- Whatever the chunks and the order of the calls, the reader receives the stream that
the writer was given: what was read is the front part of what was written that ends at the
reader's position, a write takes its whole chunk, and a read returns as much as is there. -/
theorem round_trip {vfs : VFS Unit TmpFS} {source : Str}
    (hmounts : vfs.mounts = [⟨['/'], (), source⟩]) {ino : Int} (hempty : vfs.HasFile ino [])
    {fdW fdR : Int} (hne : fdW ≠ fdR) {pathW pathR : Str}
    (hwriter : vfs.openFiles.get? fdW = some (VFS.freshFile fdW pathW ino "w".toList))
    (hreader : vfs.openFiles.get? fdR = some (VFS.freshFile fdR pathR ino "r".toList))
    (ops : List Op) :
    let s := Run.run (step fdW fdR) (start vfs) ops
    s.received <+: s.written ∧
    (s.vfs.openFiles.get? fdR).map OpenFile.position = some (s.received.length : Int) ∧
    (∀ chunk, (s.vfs.write fdW chunk).1 = chunk.length) ∧
    ∀ n : Nat, (s.vfs.read fdR n).1.length = min n (s.written.length - s.received.length) := by
  intro s
  have hstart : Flows fdW fdR ino (start vfs) :=
    { file := hempty
      writer := ⟨_, hwriter, rfl, rfl, VFS.fsOf_of_mounts hmounts pathW⟩
      reader := ⟨_, hreader, rfl, rfl, VFS.fsOf_of_mounts hmounts pathR⟩
      received := List.prefix_refl [] }
  have hflows : Flows fdW fdR ino s := Run.run_invariant (flows_step hne) hstart ops
  refine ⟨hflows.received, ?_, fun chunk => ?_, fun n => ?_⟩
  · obtain ⟨file, hfile, -, hposition, -⟩ := hflows.reader.file
    rw [hfile, Option.map_some, hposition]
  · obtain ⟨fs, -, hwrite⟩ := VFS.write_openAt hflows.writer hflows.file chunk
    rw [hwrite]
  · rw [hflows.read n, List.length_take, List.length_drop]

def demo : VFS Unit TmpFS :=
  ((((VFS.rootVfs "none".toList).createFile "/log".toList []).2.open_ "/log".toList
    "w".toList).2.open_ "/log".toList "r".toList).2

theorem round_trip_demo :
    let s := Run.run (step 3 4) (start demo) [.write [1, 2, 3], .read 2, .write [4], .read 9]
    s.received <+: s.written ∧ s.received = [1, 2, 3, 4] := by
  have hmounts : demo.mounts = [⟨['/'], (), "none".toList⟩] := rfl
  have hrooted : VFS.Rooted demo :=
    ⟨⟨_, hmounts⟩, ((VFS.rooted_rootVfs "none".toList).createFile "/log".toList []).inv⟩
  have hstat : demo.stat "/log".toList = some { ino := 2 } := by decide
  have hwriter : demo.openFiles.get? 3 =
      some (VFS.freshFile 3 "/log".toList 2 "w".toList) := by decide
  have hreader : demo.openFiles.get? 4 =
      some (VFS.freshFile 4 "/log".toList 2 "r".toList) := by decide
  exact ⟨(round_trip hmounts (hrooted.hasFile hstat rfl) (by decide) hwriter hreader _).1,
    by decide⟩

end Stream

end ComputeKernel.Vfs
