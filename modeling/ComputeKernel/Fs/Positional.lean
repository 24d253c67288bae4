import ComputeKernel.Fs.Ext2FS
import ComputeKernel.Fs.TmpFS
import ComputeKernel.Lib.Overlay

/-!
# Positional reads and writes

Both drivers store data by one slicing expression, which lays the new bytes over the old
ones at their offset and fills a gap with zero bytes.
-/

namespace ComputeKernel.Fs

open Lib

theorem spliceAt_eq_overlay (old : Bytes) (offset : Nat) (data : Bytes) :
    spliceAt old offset data = overlay 0 old offset data := by
  have hslices : ∀ padded : Bytes, offset ≤ padded.length →
      sliceTo padded offset ++ data ++ sliceFrom padded ((offset : Int) + data.length) =
        overlay 0 padded offset data := by
    intro padded hle
    rw [overlay_eq_append 0 data hle, sliceTo_of_nonneg padded (by omega),
      sliceFrom_of_nonneg padded (by omega)]
    rfl
  by_cases hgap : (offset : Int) > old.length
  · have hpad : ((offset : Int) - old.length).toNat = offset - old.length := by omega
    rw [spliceAt, if_pos hgap, hpad, hslices, overlay_pad 0 data (by omega)]
    rw [List.length_append, List.length_replicate]
    omega
  · rw [spliceAt, if_neg hgap, hslices old (by omega)]

structure Inode.Written (file file' : Inode) (offset : Nat) (data : Bytes) : Prop where
  same : file' = { file with data := file'.data, size := file'.size }
  size : file'.size = file'.data.length
  length : file'.data.length = max file.data.length (offset + data.length)
  bytes : ∀ i < file'.data.length, file'.data[i]? =
    if offset ≤ i ∧ i < offset + data.length then data[i - offset]?
    else if i < file.data.length then file.data[i]?
    else some 0

theorem Inode.written_splice (file : Inode) (offset : Nat) (data : Bytes) :
    file.Written (file.splice offset data) offset data where
  same := rfl
  size := rfl
  length := by rw [splice_data, spliceAt_eq_overlay, length_overlay]
  bytes := by
    intro i hi
    rw [splice_data, spliceAt_eq_overlay, length_overlay] at hi
    rw [splice_data, spliceAt_eq_overlay, getElem?_overlay 0 _ _ _ hi, overlayAt]
    split
    · rename_i hnew
      have hlt : i - offset < data.length := by omega
      rw [List.getElem?_eq_getElem hlt, Option.getD_some]
    · split
      · rename_i hold
        rw [List.getElem?_eq_getElem hold, Option.getD_some]
      · rename_i hold
        rw [List.getElem?_eq_none (Nat.le_of_not_lt hold), Option.getD_none]

def DisjointRanges (first : Nat) (xs : Bytes) (second : Nat) (ys : Bytes) : Prop :=
  ∀ i, ¬ ((first ≤ i ∧ i < first + xs.length) ∧ (second ≤ i ∧ i < second + ys.length))

theorem Inode.splice_comm (file : Inode) {first second : Nat} {xs ys : Bytes}
    (h : DisjointRanges first xs second ys) :
    (file.splice first xs).splice second ys = (file.splice second ys).splice first xs := by
  have hdata := overlay_comm 0 file.data h
  simp only [splice, spliceAt_eq_overlay, hdata]

namespace InodeTable

variable {inodes : InodeTable} {ino : Int} {file : Inode}

theorem write_of_file (hget : inodes.get? ino = some file) (hfile : file.itype = .file)
    (absent offset : Int) (data : Bytes) :
    write absent inodes ino offset data =
      ((data.length : Int), inodes.modify ino fun inode => inode.splice offset data) := by
  rcases write_cases absent inodes ino offset data with ⟨_, -, -, hwrite⟩ | ⟨hnone, -⟩
  · exact hwrite
  · exact absurd hfile (hnone file hget)

theorem getElem?_read (hget : inodes.get? ino = some file) (hfile : file.itype = .file)
    (offset size i : Nat) :
    (read inodes ino offset size)[i]? = if i < size then file.data[offset + i]? else none := by
  simp only [read, hget, hfile]
  rw [if_neg (by simp), slice_of_nonneg _ (by omega) (by omega), List.getElem?_drop,
    List.getElem?_take]
  have hoffset : (offset : Int).toNat = offset := rfl
  have hend : ((offset : Int) + size).toNat = offset + size := by omega
  rw [hoffset, hend]
  by_cases hi : i < size
  · rw [if_pos hi, if_pos (by omega)]
  · rw [if_neg hi, if_neg (by omega)]

theorem get?_modify_splice (hget : inodes.get? ino = some file) (hfile : file.itype = .file)
    (other offset : Int) (data : Bytes) :
    ∃ file', (inodes.modify other fun inode => inode.splice offset data).get? ino = some file' ∧
      file'.itype = .file := by
  rw [Dict.get?_modify_eq_map, hget, Option.map_some]
  split
  · exact ⟨_, rfl, hfile⟩
  · exact ⟨_, rfl, hfile⟩

end InodeTable

/-- A driver that keeps its inodes in one table and stores data there. -/
structure TableDriver (F : Type) [Filesystem F] where
  absent : Int
  inodes : F → InodeTable
  withInodes : F → InodeTable → F
  inodes_withInodes : ∀ fs table, inodes (withInodes fs table) = table
  withInodes_withInodes : ∀ fs table table',
    withInodes (withInodes fs table) table' = withInodes fs table'
  read_eq : ∀ fs ino offset size,
    Filesystem.read fs ino offset size = (inodes fs).read ino offset size
  write_eq : ∀ fs ino offset data,
    Filesystem.write fs ino offset data =
      ((InodeTable.write absent (inodes fs) ino offset data).1,
        withInodes fs (InodeTable.write absent (inodes fs) ino offset data).2)

def TmpFS.tableDriver : TableDriver TmpFS where
  absent := -2
  inodes := TmpFS.inodes
  withInodes fs table := { fs with inodes := table }
  inodes_withInodes _ _ := rfl
  withInodes_withInodes _ _ _ := rfl
  read_eq _ _ _ _ := rfl
  write_eq _ _ _ _ := rfl

def Ext2FS.tableDriver : TableDriver Ext2FS where
  absent := -22
  inodes := Ext2FS.inodes
  withInodes fs table := { fs with inodes := table }
  inodes_withInodes _ _ := rfl
  withInodes_withInodes _ _ _ := rfl
  read_eq _ _ _ _ := rfl
  write_eq _ _ _ _ := rfl

/-- Writes to regular files store every byte at its position and nothing else, reads give
the bytes back, and writes to disjoint ranges commute. -/
structure PositionalWrites (F : Type) [Filesystem F] (inodes : F → InodeTable) : Prop where
  write : ∀ (fs : F) (ino : Int) (file : Inode) (offset : Nat) (data : Bytes),
    (inodes fs).get? ino = some file → file.itype = .file →
    ∃ fs' file', Filesystem.write fs ino offset data = ((data.length : Int), fs') ∧
      (inodes fs').get? ino = some file' ∧ file.Written file' offset data ∧
      (∀ other, other ≠ ino → (inodes fs').get? other = (inodes fs).get? other) ∧
      (inodes fs').Entry = (inodes fs).Entry
  read : ∀ (fs : F) (ino : Int) (file : Inode) (offset size : Nat),
    (inodes fs).get? ino = some file → file.itype = .file →
    ∀ i : Nat, (Filesystem.read fs ino offset size)[i]? =
      if i < size then file.data[offset + i]? else none
  comm : ∀ (fs : F) (ino ino' : Int) (file file' : Inode) (first second : Nat) (xs ys : Bytes),
    (inodes fs).get? ino = some file → file.itype = .file →
    (inodes fs).get? ino' = some file' → file'.itype = .file →
    (ino = ino' → DisjointRanges first xs second ys) →
    (Filesystem.write (Filesystem.write fs ino first xs).2 ino' second ys).2 =
      (Filesystem.write (Filesystem.write fs ino' second ys).2 ino first xs).2

namespace TableDriver

variable {F : Type} [Filesystem F] (driver : TableDriver F)

theorem write_of_file {fs : F} {ino : Int} {file : Inode}
    (hget : (driver.inodes fs).get? ino = some file) (hfile : file.itype = .file)
    (offset : Int) (data : Bytes) :
    Filesystem.write fs ino offset data =
      ((data.length : Int), driver.withInodes fs
        ((driver.inodes fs).modify ino fun inode => inode.splice offset data)) := by
  rw [driver.write_eq, InodeTable.write_of_file hget hfile]

theorem positionalWrites : PositionalWrites F driver.inodes where
  write := by
    intro fs ino file offset data hget hfile
    refine ⟨_, file.splice offset data, driver.write_of_file hget hfile offset data, ?_,
      file.written_splice offset data, ?_, ?_⟩
    · rw [driver.inodes_withInodes, Dict.get?_modify, if_pos rfl, hget, Option.map_some]
    · intro other hother
      rw [driver.inodes_withInodes, Dict.get?_modify_of_ne _ _ hother]
    · rw [driver.inodes_withInodes]
      exact InodeTable.entry_modify fun inode => rfl
  read := by
    intro fs ino file offset size hget hfile i
    rw [driver.read_eq]
    exact InodeTable.getElem?_read hget hfile offset size i
  comm := by
    intro fs ino ino' file file' first second xs ys hget hfile hget' hfile' hdisjoint
    have hcomm :
        ((driver.inodes fs).modify ino fun inode => inode.splice first xs).modify ino'
            (fun inode => inode.splice second ys) =
          ((driver.inodes fs).modify ino' fun inode => inode.splice second ys).modify ino
            (fun inode => inode.splice first xs) :=
      Dict.modify_comm _ fun heq inode => (inode.splice_comm (hdisjoint heq)).symm
    obtain ⟨_, hsecond, hsecondFile⟩ :=
      InodeTable.get?_modify_splice hget' hfile' ino first xs
    obtain ⟨_, hfirst, hfirstFile⟩ :=
      InodeTable.get?_modify_splice hget hfile ino' second ys
    rw [driver.write_of_file hget hfile, driver.write_of_file hget' hfile',
      driver.write_of_file (by rwa [driver.inodes_withInodes]) hsecondFile,
      driver.write_of_file (by rwa [driver.inodes_withInodes]) hfirstFile]
    simp only [driver.inodes_withInodes, driver.withInodes_withInodes, hcomm]

end TableDriver

theorem positional_writes :
    PositionalWrites TmpFS TmpFS.inodes ∧ PositionalWrites Ext2FS Ext2FS.inodes :=
  ⟨TmpFS.tableDriver.positionalWrites, Ext2FS.tableDriver.positionalWrites⟩

/-- A write behind the end of an empty file, and the bytes that are read back. -/
theorem positional_writes_gap :
    let fs := (TmpFS.init.create 1 "a".toList .file).2
    (∃ fs' file', Filesystem.write fs 2 (2 : Nat) [7, 8] = (2, fs') ∧
      fs'.inodes.get? 2 = some file' ∧ Inode.Written { ino := 2 } file' 2 [7, 8]) ∧
    ((fs.write 2 2 [7, 8]).2.read 2 1 2) = [0, 7] := by
  intro fs
  obtain ⟨fs', file', hwrite, hget, hwritten, -⟩ :=
    positional_writes.1.write fs 2 { ino := 2 } 2 [7, 8] (by decide) rfl
  exact ⟨⟨fs', file', hwrite, hget, hwritten⟩, by decide⟩

end ComputeKernel.Fs
