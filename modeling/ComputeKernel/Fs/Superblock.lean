import Mathlib.Algebra.Order.BigOperators.Group.List
import Mathlib.Algebra.Order.Ring.Int
import ComputeKernel.Fs.Ext2Table

/-!
# Accounting in the ext2 superblock

Every creation takes an inode from the count, and nothing looks at the count before it
does.  A write works out the blocks of the file for its message and leaves the count of
free blocks as it is.
-/

namespace ComputeKernel.Fs

open Lib Lib.Run

theorem spliceAt_nil_eq_nil_iff (offset : Int) (data : Bytes) :
    spliceAt [] offset data = [] ↔ data = [] ∧ offset ≤ 0 := by
  unfold spliceAt
  rw [List.append_eq_nil_iff, List.append_eq_nil_iff]
  by_cases hgap : offset > ([] : Bytes).length
  · have hpos : 0 < offset := hgap
    rw [if_pos hgap, sliceTo_of_nonneg _ (Int.le_of_lt hpos)]
    refine iff_of_false ?_ fun hnone => Int.not_le.mpr hpos hnone.2
    rintro ⟨⟨hfill, -⟩, -⟩
    have hlength := congrArg List.length hfill
    simp only [List.nil_append, List.length_nil, List.length_take, List.length_replicate] at hlength
    omega
  · have hle : offset ≤ 0 := Int.not_lt.mp hgap
    rw [if_neg hgap]
    simp [sliceTo, sliceFrom, hle]

namespace Ext2FS

def step (fs : Ext2FS) : Op → Ext2FS
  | .create parentIno name itype => (fs.create parentIno name itype).2
  | .mkdir parentIno name => (fs.mkdir parentIno name).2
  | .write ino offset data => (fs.write ino offset data).2

def blocksUsed (superblock : Ext2Superblock) (size : Int) : Int :=
  (size + superblock.blockSize - 1) / superblock.blockSize

def fileBlocks (fs : Ext2FS) : Int :=
  ((fs.inodes.values.filter fun inode => inode.itype = .file).map
    fun inode => blocksUsed fs.superblock inode.size).sum

/-- Neither count is negative, and the blocks that are gone since the volume was new are
those that its files have come to use. -/
structure Accounted (new fs : Ext2FS) : Prop where
  inodes_nonneg : 0 ≤ fs.superblock.freeInodes
  blocks_nonneg : 0 ≤ fs.superblock.freeBlocks
  blocks_fall : new.superblock.freeBlocks - fs.superblock.freeBlocks =
    fs.fileBlocks - new.fileBlocks

def Op.IsCreation : Op → Prop
  | .create _ _ _ => True
  | .mkdir _ _ => True
  | .write _ _ _ => False

/-- A call takes one inode if it creates one and none otherwise, and with no inode left
a creation fails and changes nothing. -/
structure TakesInodes (fs : Ext2FS) (op : Op) : Prop where
  falls : (fs.step op).superblock.freeInodes =
    fs.superblock.freeInodes - if (op.newInode? fs).isSome then 1 else 0
  refused : op.IsCreation → fs.superblock.freeInodes = 0 →
    op.newInode? fs = none ∧ fs.step op = fs

def Admits (fs : Ext2FS) (parentIno : Int) (name : Str) : Prop :=
  ∃ parent, fs.lookup parentIno = some parent ∧ parent.itype = .dir ∧
    parent.children.get? name = none

/-- The call creates nothing when there is no free inode, and puts no byte into a file. -/
def Affordable (fs : Ext2FS) : Op → Prop
  | .create parentIno name _ => fs.superblock.freeInodes = 0 → ¬ fs.Admits parentIno name
  | .mkdir parentIno name => fs.superblock.freeInodes = 0 → ¬ fs.Admits parentIno name
  | .write ino offset data => ∀ inode, fs.lookup ino = some inode → inode.itype = .file →
      data = [] ∧ offset ≤ 0

/-! ## One call -/

variable {fs : Ext2FS}

theorem admits_iff {parentIno : Int} {name : Str} : fs.Admits parentIno name ↔
    InodeTable.createError "ext2".toList fs.inodes parentIno name = none :=
  InodeTable.createError_eq_none.symm

theorem create_of_not_admits {parentIno : Int} {name : Str} (h : ¬ fs.Admits parentIno name)
    (itype : InodeType) : ∃ error, fs.create parentIno name itype = (.error error, fs) := by
  rw [admits_iff] at h
  obtain ⟨error, herror⟩ := Option.ne_none_iff_exists'.mp h
  exact ⟨error, create_of_error herror itype⟩

theorem step_cases (fs : Ext2FS) (op : Op) :
    (∃ parentIno name inode, fs.Admits parentIno name ∧ op.newInode? fs = some inode ∧
      inode = { ino := fs.nextIno, itype := inode.itype } ∧
      fs.step op =
        { superblock := takeInode fs.superblock
          inodes := fs.inodes.enter parentIno name inode
          nextIno := fs.nextIno + 1 }) ∨
    (∃ ino offset data inode, op = .write ino offset data ∧ fs.inodes.get? ino = some inode ∧
      inode.itype = .file ∧
      fs.step op = { fs with inodes := fs.inodes.set ino (inode.splice offset data) }) ∨
    (op.newInode? fs = none ∧ fs.step op = fs) := by
  have hcreate : ∀ parentIno name itype,
      (∃ parentIno' name' inode, fs.Admits parentIno' name' ∧
        (fs.create parentIno name itype).1.toOption = some inode ∧
        inode = { ino := fs.nextIno, itype := inode.itype } ∧
        (fs.create parentIno name itype).2 =
          { superblock := takeInode fs.superblock
            inodes := fs.inodes.enter parentIno' name' inode
            nextIno := fs.nextIno + 1 }) ∨
      ((fs.create parentIno name itype).1.toOption = none ∧
        (fs.create parentIno name itype).2 = fs) := by
    intro parentIno name itype
    by_cases hadmits : fs.Admits parentIno name
    · rw [create_of_none (admits_iff.mp hadmits)]
      exact Or.inl ⟨parentIno, name, _, hadmits, rfl, rfl, rfl⟩
    · obtain ⟨error, hcreate⟩ := create_of_not_admits hadmits itype
      rw [hcreate]
      exact Or.inr ⟨rfl, rfl⟩
  cases op with
  | create parentIno name itype => exact (hcreate parentIno name itype).imp_right Or.inr
  | mkdir parentIno name => exact (hcreate parentIno name .dir).imp_right Or.inr
  | write ino offset data =>
      refine Or.inr ?_
      rcases InodeTable.write_cases (-22) fs.inodes ino offset data with
        ⟨inode, hget, hfile, hspliced⟩ | ⟨-, hsame, -⟩
      · refine Or.inl ⟨ino, offset, data, inode, rfl, hget, hfile, ?_⟩
        simp only [step, Ext2FS.write, hspliced, Dict.modify_of_get? _ hget]
      · refine Or.inr ⟨rfl, ?_⟩
        simp only [step, Ext2FS.write, hsame]

theorem freeInodes_step (fs : Ext2FS) (op : Op) :
    (fs.step op).superblock.freeInodes =
      fs.superblock.freeInodes - if (op.newInode? fs).isSome then 1 else 0 := by
  rcases fs.step_cases op with ⟨parentIno, name, inode, -, hnew, -, hstep⟩ |
    ⟨ino, offset, data, inode, rfl, -, -, hstep⟩ | ⟨hnone, hstep⟩
  · rw [hstep, hnew]
    rfl
  · rw [hstep]
    exact (Int.sub_zero _).symm
  · rw [hstep, hnone]
    exact (Int.sub_zero _).symm

theorem takesInodes_iff {op : Op} : fs.TakesInodes op ↔
    (op.IsCreation → fs.superblock.freeInodes = 0 → op.newInode? fs = none ∧ fs.step op = fs) :=
  ⟨TakesInodes.refused, fun hrefused => ⟨freeInodes_step fs op, hrefused⟩⟩

theorem refused_iff (parentIno : Int) (name : Str) (itype : InodeType) :
    ((fs.create parentIno name itype).1.toOption = none ∧
        (fs.create parentIno name itype).2 = fs) ↔ ¬ fs.Admits parentIno name := by
  constructor
  · rintro ⟨hnone, -⟩ hadmits
    rw [create_of_none (admits_iff.mp hadmits)] at hnone
    cases hnone
  · intro hadmits
    obtain ⟨error, hcreate⟩ := create_of_not_admits hadmits itype
    rw [hcreate]
    exact ⟨rfl, rfl⟩

/-! ## Blocks -/

theorem blocksUsed_bounds {superblock : Ext2Superblock} (h : 0 < superblock.blockSize)
    (size : Int) :
    size ≤ blocksUsed superblock size * superblock.blockSize ∧
      blocksUsed superblock size * superblock.blockSize < size + superblock.blockSize := by
  have hbelow := Int.ediv_mul_le (size + superblock.blockSize - 1) (Int.ne_of_gt h)
  have habove := Int.lt_ediv_add_one_mul_self (size + superblock.blockSize - 1) h
  rw [Int.add_mul, Int.one_mul] at habove
  unfold blocksUsed
  omega

/-- What no call changes, and sizes that are those of the data. -/
structure Consistent (fs : Ext2FS) : Prop where
  blockSize : fs.superblock.blockSize = 4096
  freeBlocks : fs.superblock.freeBlocks = 8180
  sizes : ∀ ino inode, fs.inodes.get? ino = some inode → inode.size = inode.data.length

def NoData (fs : Ext2FS) : Prop :=
  ∀ ino inode, fs.inodes.get? ino = some inode → inode.itype = .file → inode.data = []

theorem consistent_init (volumeName : Str) : Consistent (init volumeName) where
  blockSize := rfl
  freeBlocks := rfl
  sizes := Dict.forall_get?_set (by simp) rfl

theorem noData_init (volumeName : Str) : NoData (init volumeName) :=
  Dict.forall_get?_set (by simp) fun _ => rfl

theorem Consistent.fileBlocks_eq_zero_iff (h : Consistent fs) :
    fs.fileBlocks = 0 ↔ NoData fs := by
  have hblock : 0 < fs.superblock.blockSize := by
    rw [h.blockSize]
    decide
  have hused : ∀ ino inode, fs.inodes.get? ino = some inode →
      0 ≤ blocksUsed fs.superblock inode.size ∧
        (blocksUsed fs.superblock inode.size = 0 ↔ inode.data = []) := by
    intro ino inode hget
    have hbounds := blocksUsed_bounds hblock inode.size
    rw [h.blockSize, h.sizes ino inode hget] at hbounds
    rw [h.sizes ino inode hget, ← List.length_eq_zero_iff]
    omega
  constructor
  · intro hzero ino inode hget hfile
    apply (hused ino inode hget).2.mp
    refine List.all_zero_of_le_zero_le_of_sum_eq_zero ?_ hzero ?_
    · intro blocks hblocks
      obtain ⟨other, hother, rfl⟩ := List.mem_map.mp hblocks
      obtain ⟨ino', hget'⟩ := Dict.mem_values.mp (List.mem_of_mem_filter hother)
      exact (hused ino' other hget').1
    · apply List.mem_map_of_mem
      exact List.mem_filter.mpr ⟨Dict.mem_values.mpr ⟨ino, hget⟩, by simpa using hfile⟩
  · intro hempty
    apply List.sum_eq_zero
    intro blocks hblocks
    obtain ⟨inode, hinode, rfl⟩ := List.mem_map.mp hblocks
    obtain ⟨hvalue, hfile⟩ := List.mem_filter.mp hinode
    obtain ⟨ino, hget⟩ := Dict.mem_values.mp hvalue
    exact (hused ino inode hget).2.mpr (hempty ino inode hget (by simpa using hfile))

theorem Consistent.accounted_iff (h : Consistent fs) (volumeName : Str) :
    Accounted (init volumeName) fs ↔ 0 ≤ fs.superblock.freeInodes ∧ NoData fs := by
  have hnew := (consistent_init volumeName).fileBlocks_eq_zero_iff.mpr (noData_init volumeName)
  have hblocks : (init volumeName).superblock.freeBlocks = 8180 := rfl
  constructor
  · intro haccounted
    have hfall := haccounted.blocks_fall
    rw [hnew, hblocks, h.freeBlocks] at hfall
    refine ⟨haccounted.inodes_nonneg, h.fileBlocks_eq_zero_iff.mp ?_⟩
    omega
  · rintro ⟨hinodes, hempty⟩
    refine ⟨hinodes, ?_, ?_⟩
    · rw [h.freeBlocks]
      decide
    · rw [hnew, hblocks, h.freeBlocks, h.fileBlocks_eq_zero_iff.mpr hempty]
      rfl

/-! ## Inodes over one call -/

/-- What holds of every inode still does when it holds of new ones and neither a new entry
nor the write that is performed affects it. -/
theorem forall_step {P : Int → Inode → Prop}
    (h : ∀ ino inode, fs.inodes.get? ino = some inode → P ino inode)
    (hnew : ∀ ino itype, P ino { ino := ino, itype := itype })
    (hentry : ∀ ino inode name child, P ino inode → P ino (inode.addEntry name child)) (op : Op)
    (hwrite : ∀ ino offset data inode, op = .write ino offset data →
      fs.inodes.get? ino = some inode → inode.itype = .file → P ino (inode.splice offset data)) :
    ∀ ino inode, (fs.step op).inodes.get? ino = some inode → P ino inode := by
  rcases fs.step_cases op with ⟨parentIno, name, inode, -, -, hinode, hstep⟩ |
    ⟨ino, offset, data, inode, hop, hget, hfile, hstep⟩ | ⟨-, hstep⟩
  · have hset : ∀ ino other, (fs.inodes.set inode.ino inode).get? ino = some other →
        P ino other := by
      apply Dict.forall_get?_set h
      rw [hinode]
      exact hnew fs.nextIno inode.itype
    rw [hstep]
    dsimp only [InodeTable.enter]
    split
    · exact hset
    · exact Dict.forall_get?_modify hset _ fun ino other => hentry ino other name inode.ino
  · rw [hstep]
    exact Dict.forall_get?_set h (hwrite ino offset data inode hop hget hfile)
  · rw [hstep]
    exact h

theorem consistent_step (fs : Ext2FS) (op : Op) (h : Consistent fs) : Consistent (fs.step op) := by
  have hkept : (fs.step op).superblock.blockSize = fs.superblock.blockSize ∧
      (fs.step op).superblock.freeBlocks = fs.superblock.freeBlocks := by
    rcases fs.step_cases op with ⟨parentIno, name, inode, -, -, -, hstep⟩ |
      ⟨ino, offset, data, inode, -, -, -, hstep⟩ | ⟨-, hstep⟩
    · rw [hstep]
      exact ⟨rfl, rfl⟩
    · rw [hstep]
      exact ⟨rfl, rfl⟩
    · rw [hstep]
      exact ⟨rfl, rfl⟩
  refine ⟨hkept.1.trans h.blockSize, hkept.2.trans h.freeBlocks, ?_⟩
  exact forall_step h.sizes (fun _ _ => rfl) (fun _ _ _ _ hsize => hsize) op
    fun _ _ _ _ _ _ _ => rfl

theorem noData_step (h : NoData fs) {op : Op} (hop : fs.Affordable op) : NoData (fs.step op) := by
  refine forall_step h (fun _ _ _ => rfl) (fun _ _ _ _ hempty => hempty) op ?_
  rintro ino offset data inode rfl hget hfile _
  rw [Inode.splice_data, h ino inode hget hfile, spliceAt_nil_eq_nil_iff]
  exact hop inode hget hfile

theorem not_noData_of_write (h : NoData fs) {ino offset : Int} {data : Bytes}
    (hwrite : ¬ fs.Affordable (.write ino offset data)) :
    ¬ NoData (fs.step (.write ino offset data)) := by
  intro hempty
  apply hwrite
  intro inode hget hfile
  have hget : fs.inodes.get? ino = some inode := hget
  have hspliced : (fs.step (.write ino offset data)).inodes.get? ino =
      some (inode.splice offset data) := by
    simp [step, write, InodeTable.write, hget, hfile]
  have hnone := hempty ino _ hspliced hfile
  rwa [Inode.splice_data, h ino inode hget hfile, spliceAt_nil_eq_nil_iff] at hnone

theorem takesInodes_iff_affordable {op : Op} (h : op.IsCreation) :
    fs.TakesInodes op ↔ fs.Affordable op := by
  rw [takesInodes_iff, forall_prop_of_true h]
  cases op with
  | create parentIno name itype =>
      exact forall_congr' fun _ => refused_iff parentIno name itype
  | mkdir parentIno name =>
      exact forall_congr' fun _ => refused_iff parentIno name .dir
  | write ino offset data => cases h

theorem freeInodes_nonneg_step (h : 0 ≤ fs.superblock.freeInodes) {op : Op}
    (hop : fs.TakesInodes op) : 0 ≤ (fs.step op).superblock.freeInodes := by
  rw [hop.falls]
  by_cases hnew : (op.newInode? fs).isSome
  · rw [if_pos hnew]
    have hleft : fs.superblock.freeInodes ≠ 0 := by
      intro hzero
      have hcreation : op.IsCreation := by
        cases op with
        | create parentIno name itype => trivial
        | mkdir parentIno name => trivial
        | write ino offset data => cases hnew
      rw [(hop.refused hcreation hzero).1] at hnew
      cases hnew
    omega
  · rw [if_neg hnew]
    omega

/-! ## Runs -/

/-- The counts of a new volume stay right exactly in the runs that create no inode when none
is free and put no byte into a file. -/
theorem accounted_run_iff (volumeName : Str) (ops : List Op) :
    Always step (Accounted (init volumeName)) (init volumeName) ops ∧
        Guarded step TakesInodes (init volumeName) ops ↔
      Guarded step Affordable (init volumeName) ops := by
  apply always_and_guarded_iff (I := Consistent) consistent_step
  · intro fs op hconsistent haccounted haffordable
    have htakes : fs.TakesInodes op := by
      by_cases hcreation : op.IsCreation
      · exact (takesInodes_iff_affordable hcreation).mpr haffordable
      · exact takesInodes_iff.mpr fun hcontra => absurd hcontra hcreation
    rw [hconsistent.accounted_iff] at haccounted
    refine ⟨((consistent_step fs op hconsistent).accounted_iff volumeName).mpr ?_, htakes⟩
    exact ⟨freeInodes_nonneg_step haccounted.1 htakes, noData_step haccounted.2 haffordable⟩
  · intro fs op hconsistent haccounted haffordable htakes hnext
    rw [hconsistent.accounted_iff] at haccounted
    rw [(consistent_step fs op hconsistent).accounted_iff] at hnext
    by_cases hcreation : op.IsCreation
    · exact haffordable ((takesInodes_iff_affordable hcreation).mp htakes)
    · cases op with
      | create parentIno name itype => exact hcreation trivial
      | mkdir parentIno name => exact hcreation trivial
      | write ino offset data => exact not_noData_of_write haccounted.2 haffordable hnext.2
  · exact consistent_init volumeName
  · have hfree : (init volumeName).superblock.freeInodes = 1022 := rfl
    rw [(consistent_init volumeName).accounted_iff, hfree]
    exact ⟨by decide, noData_init volumeName⟩

/-- A directory has taken the place of the root, and `n` creations in it the inodes. -/
structure Filled (n : Nat) (fs : Ext2FS) : Prop where
  freeInodes : fs.superblock.freeInodes = 1021 - n
  two_lt_nextIno : 2 < fs.nextIno
  root : ∃ dir, fs.lookup 2 = some dir ∧ dir.itype = .dir ∧
    ∀ name ∈ dir.children, name.length ≤ n

theorem Filled.create {n : Nat} (h : Filled n fs) {name : Str} (hname : name.length = n + 1)
    (itype : InodeType) : Filled (n + 1) (fs.create 2 name itype).2 := by
  obtain ⟨hfree, hnext, dir, hdir, htype, hnames⟩ := h
  have hnew : name ∉ dir.children := by
    intro hmem
    have := hnames name hmem
    omega
  have hadmits : fs.Admits 2 name := ⟨dir, hdir, htype, Dict.get?_eq_none.mpr hnew⟩
  rw [create_of_none (admits_iff.mp hadmits)]
  constructor
  · change fs.superblock.freeInodes - 1 = _
    omega
  · change 2 < fs.nextIno + 1
    omega
  · refine ⟨dir.addEntry name fs.nextIno, ?_, htype, ?_⟩
    · have hdir : fs.inodes.get? 2 = some dir := hdir
      have hne : fs.nextIno ≠ 2 := Int.ne_of_gt hnext
      simp [lookup, InodeTable.enter, Dict.get?_modify, Dict.get?_set, hne, hne.symm, hdir]
    · intro name' hmem
      rcases Dict.mem_set.mp hmem with rfl | hold
      · exact Nat.le_of_eq hname
      · have := hnames name' hold
        omega

def fill : Nat → List Op
  | 0 => [.mkdir 2 []]
  | n + 1 => fill n ++ [.create 2 (List.replicate (n + 1) 'a') .file]

theorem filled_run (volumeName : Str) (n : Nat) :
    Filled n (run step (init volumeName) (fill n)) := by
  induction n with
  | zero =>
      have hnext : (2 : Int) < 3 := by decide
      refine ⟨rfl, hnext, _, rfl, rfl, ?_⟩
      intro name hname
      exact absurd hname (Dict.not_mem_empty name)
  | succ n ih =>
      rw [fill, run_concat]
      exact ih.create List.length_replicate .file

/-- One byte is written and no block is taken; and 1023 creations take 1022 inodes and one that
is not there. -/
theorem block_not_taken :
    let ops : List Op := [.mkdir 2 "d".toList, .create 2 "f".toList .file, .write 3 0 [0]]
    let fs := run step (init "ext2-sim".toList) ops
    ¬ (Always step (Accounted (init "ext2-sim".toList)) (init "ext2-sim".toList) ops ∧
      Guarded step TakesInodes (init "ext2-sim".toList) ops) ∧
    fs.fileBlocks = 1 ∧ fs.superblock.freeBlocks = 8180 ∧
    (run step (init "ext2-sim".toList) (fill 1022)).superblock.freeInodes = -1 := by
  intro ops fs
  refine ⟨?_, by decide, by decide, (filled_run _ 1022).freeInodes⟩
  rintro ⟨halways, -⟩
  have haccounted := always_iff_prefixes.mp halways ops (List.prefix_refl ops)
  exact absurd haccounted.blocks_fall (by decide)

end Ext2FS

end ComputeKernel.Fs
