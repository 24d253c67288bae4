import ComputeKernel.Fs.Ext2FS
import ComputeKernel.Lib.Run

/-!
# Integrity of the ext2 inode table

A run is traced by what its successful calls promise: which entry each creation
made, and which bytes each inode was left with.  The table keeps these promises
exactly in the runs that never create anything: the counter starts at the number
of the root directory, so the first creation replaces the root.
-/

namespace ComputeKernel.Fs.Ext2FS

open Lib Lib.Run

inductive Op
  | create (parentIno : Int) (name : Str) (itype : InodeType)
  | mkdir (parentIno : Int) (name : Str)
  | write (ino offset : Int) (data : Bytes)

structure Creation where
  parentIno : Int
  name : Str
  ino : Int
  itype : InodeType

/-- A volume together with what its successful calls promised. -/
structure Traced where
  fs : Ext2FS
  created : List Creation
  contents : Int → Bytes

namespace Traced

def init (volumeName : Str) : Traced :=
  ⟨Ext2FS.init volumeName, [], fun _ => []⟩

def recordCreate (s : Traced) (parentIno : Int) (name : Str) (itype : InodeType) :
    Except FsError Inode × Ext2FS → Traced
  | (.error _, fs) => { s with fs := fs }
  | (.ok inode, fs) =>
      { fs := fs
        created := s.created ++ [⟨parentIno, name, inode.ino, itype⟩]
        contents := Function.update s.contents inode.ino [] }

def recordWrite (s : Traced) (ino offset : Int) (data : Bytes) : Int × Ext2FS → Traced
  | (n, fs) =>
      if n < 0 then { s with fs := fs }
      else
        { s with
          fs := fs
          contents := Function.update s.contents ino
            (spliceAt (s.contents ino) offset data) }

def step (s : Traced) : Op → Traced
  | .create parentIno name itype =>
      s.recordCreate parentIno name itype (s.fs.create parentIno name itype)
  | .mkdir parentIno name => s.recordCreate parentIno name .dir (s.fs.mkdir parentIno name)
  | .write ino offset data => s.recordWrite ino offset data (s.fs.write ino offset data)

end Traced

def Op.newInode? (fs : Ext2FS) : Op → Option Inode
  | .create parentIno name itype => (fs.create parentIno name itype).1.toOption
  | .mkdir parentIno name => (fs.mkdir parentIno name).1.toOption
  | .write _ _ _ => none

def CreatesFresh (s : Traced) (op : Op) : Prop :=
  ∀ inode, op.newInode? s.fs = some inode → inode.ino ∉ s.fs.inodes

def RootKept (s : Traced) : Prop :=
  ∃ root, s.fs.lookup 2 = some root ∧ root.itype = .dir ∧
    ∀ c ∈ s.created, c.parentIno = 2 → root.children.get? c.name = some c.ino

def EntriesKept (s : Traced) : Prop :=
  ∀ c ∈ s.created, ∃ inode, s.fs.lookupName c.parentIno c.name = some inode ∧
    inode.ino = c.ino ∧ inode.itype = c.itype ∧ inode.data = s.contents c.ino

def Integrity (s : Traced) (ops : List Op) : Prop :=
  Guarded Traced.step CreatesFresh s ops ∧
    Always Traced.step (fun s => RootKept s ∧ EntriesKept s) s ops

def Op.CreatesInRoot : Op → Prop
  | .create parentIno _ _ => parentIno = 2
  | .mkdir parentIno _ => parentIno = 2
  | .write _ _ _ => False

theorem create_init_of_ne (volumeName : Str) {parentIno : Int} (hne : parentIno ≠ 2)
    (name : Str) (itype : InodeType) :
    ∃ error, (init volumeName).create parentIno name itype =
      (.error error, init volumeName) := by
  have habsent : (init volumeName).inodes.get? parentIno = none := by
    simp [init, Dict.get?_set, hne]
  refine ⟨InodeTable.createError.notADir "ext2".toList parentIno, create_of_error ?_ itype⟩
  simp only [InodeTable.createError, habsent]

theorem write_init (volumeName : Str) (ino offset : Int) (data : Bytes) :
    (init volumeName).write ino offset data = (-22, init volumeName) := by
  by_cases hino : ino = 2
  · subst hino
    rfl
  · have habsent : (init volumeName).inodes.get? ino = none := by
      simp [init, Dict.get?_set, hino]
    simp [write, InodeTable.write, habsent]

theorem step_init (volumeName : Str) {op : Op} (h : ¬ op.CreatesInRoot) :
    Traced.step (Traced.init volumeName) op = Traced.init volumeName ∧
      op.newInode? (init volumeName) = none := by
  cases op with
  | create parentIno name itype =>
      obtain ⟨error, hcreate⟩ := create_init_of_ne volumeName h name itype
      simp [Traced.step, Op.newInode?, Traced.init, hcreate, Traced.recordCreate,
        Except.toOption]
  | mkdir parentIno name =>
      obtain ⟨error, hcreate⟩ := create_init_of_ne volumeName h name .dir
      simp [Traced.step, Op.newInode?, Traced.init, mkdir, hcreate, Traced.recordCreate,
        Except.toOption]
  | write ino offset data =>
      simp [Traced.step, Op.newInode?, Traced.init, write_init, Traced.recordWrite]

theorem not_createsFresh_init (volumeName : Str) {op : Op} (h : op.CreatesInRoot) :
    ¬ CreatesFresh (Traced.init volumeName) op := by
  have hroot : (2 : Int) ∈ (init volumeName).inodes := by
    simp [init]
  intro hfresh
  cases op with
  | create parentIno name itype =>
      subst h
      exact hfresh { ino := 2, itype := itype } rfl hroot
  | mkdir parentIno name =>
      subst h
      exact hfresh { ino := 2, itype := .dir } rfl hroot
  | write ino offset data => exact h

/-- The inode table keeps its integrity exactly in the runs that ask for no new
entry in the root directory, which are the runs that create nothing. -/
theorem integrity_iff (volumeName : Str) (ops : List Op) :
    Integrity (Traced.init volumeName) ops ↔ ∀ op ∈ ops, ¬ op.CreatesInRoot := by
  have hinit : RootKept (Traced.init volumeName) ∧ EntriesKept (Traced.init volumeName) :=
    ⟨⟨_, rfl, rfl, by simp [Traced.init]⟩, by simp [EntriesKept, Traced.init]⟩
  induction ops with
  | nil => simpa [Integrity, Guarded, Always] using hinit
  | cons op ops ih =>
      by_cases hroot : op.CreatesInRoot
      · constructor
        · intro h
          exact (not_createsFresh_init volumeName hroot h.1.1).elim
        · intro h
          exact (h op List.mem_cons_self hroot).elim
      · obtain ⟨hstep, hnone⟩ := step_init volumeName hroot
        have hfresh : CreatesFresh (Traced.init volumeName) op := by
          intro inode hinode
          rw [Traced.init, hnone] at hinode
          cases hinode
        have hsplit : Integrity (Traced.init volumeName) (op :: ops) ↔
            Integrity (Traced.init volumeName) ops := by
          simp only [Integrity, Guarded, Always, hstep, hfresh, hinit, true_and, and_self]
        simp [hsplit, ih, hroot]

/-- One creation in the root: the new file takes the place of the root, and its
entry is gone with the old root object. -/
theorem first_create_replaces_root :
    ¬ Integrity (Traced.init "ext2-sim".toList) [.create 2 "a".toList .file] ∧
    (((init "ext2-sim".toList).create 2 "a".toList .file).2.lookup 2).map Inode.itype =
      some .file ∧
    ((init "ext2-sim".toList).create 2 "a".toList .file).2.lookupName 2 "a".toList = none := by
  have hroot : (Op.create 2 "a".toList .file).CreatesInRoot := rfl
  exact ⟨fun h => not_createsFresh_init "ext2-sim".toList hroot h.1.1, by decide, by decide⟩

end ComputeKernel.Fs.Ext2FS
