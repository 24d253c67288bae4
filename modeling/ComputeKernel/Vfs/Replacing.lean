import ComputeKernel.Vfs.Positions

/-!
# Writing a file by path

A missing file is created with the data.  An existing one is written to from its start, and
what it holds behind the data stays.
-/

namespace ComputeKernel.Vfs.VFS

open Lib Lib.Path Lib.Run Lib.Tree Fs

def WritesBack (vfs : VFS Unit TmpFS) (path : Str) (data : Bytes) : Prop :=
  0 ≤ (vfs.writePath path data).1 →
    (∀ n : Int, (data.length : Int) ≤ n →
      (vfs.writePath path data).2.readPath path n = some data) ∧
    ((vfs.writePath path data).2.stat path).map Inode.size = some (data.length : Int)

def NotLonger (vfs : VFS Unit TmpFS) (path : Str) (data : Bytes) : Prop :=
  ∀ inode, vfs.stat path = some inode → inode.itype = .file → inode.data.length ≤ data.length

namespace Rooted

variable {vfs : VFS Unit TmpFS} {path : Str}

theorem resolve?_of_stat_none (h : Rooted vfs) (hpath : Normalized '/' path)
    (hstat : vfs.stat path = none) : vfs.resolve? path = none := by
  cases hresolve : vfs.resolve? path with
  | none => rfl
  | some target =>
      obtain ⟨⟨⟩, ino⟩ := target
      exact absurd ((h.resolve?_eq hpath ino).mp hresolve) ((h.stat_eq_none hpath).mp hstat ino)

theorem components_ne_nil_of_stat_none (h : Rooted vfs) (hpath : Normalized '/' path)
    (hstat : vfs.stat path = none) : components '/' path ≠ [] := by
  intro hnil
  have hwalk : Walk (vfs.filesystems ()).inodes.Entry 1 (components '/' path) 1 := by
    rw [hnil]
    exact .nil 1
  exact (h.stat_eq_none hpath).mp hstat 1 hwalk

theorem writesBack_of_none (h : Rooted vfs) (hpath : Normalized '/' path)
    (hstat : vfs.stat path = none) (data : Bytes) : WritesBack vfs path data := by
  have hwrite : vfs.writePath path data =
      ((if (vfs.createFile path data).1 then (data.length : Int) else -2),
        (vfs.createFile path data).2) := by
    unfold VFS.writePath
    rw [h.resolve?_of_stat_none hpath hstat]
  have hexact := h.createsExactly_createFile hpath
    (h.components_ne_nil_of_stat_none hpath hstat) data
  intro hresult
  rw [hwrite] at hresult ⊢
  cases hcreated : (vfs.createFile path data).1 with
  | false => simp [hcreated] at hresult
  | true =>
      obtain ⟨inode, hinode, -, hregular, hdata, hsize, -⟩ := hexact.created hcreated
      constructor
      · intro n hn
        rw [(h.createFile path data).readPath_eq hpath hinode hregular (by omega), hdata,
          List.take_of_length_le (by omega)]
      · rw [hinode, Option.map_some, hsize]

theorem stat_writePath (h : Rooted vfs) (hpath : Normalized '/' path) {inode : Inode}
    (hstat : vfs.stat path = some inode) (hregular : inode.itype = .file) (data : Bytes) :
    (vfs.writePath path data).1 = data.length ∧
      (vfs.writePath path data).2.stat path = some (inode.splice 0 data) := by
  obtain ⟨hwalk, hlookup⟩ := (h.stat_eq_some hpath).mp hstat
  have hwrite : Filesystem.write (vfs.filesystems ()) inode.ino 0 data =
      ((data.length : Int), (vfs.filesystems ()).update inode.ino fun inode =>
        inode.splice 0 data) := by
    change TmpFS.write _ _ _ _ = _
    rw [TmpFS.write, InodeTable.write_of_file hlookup hregular]
    rfl
  have hresult : vfs.writePath path data = ((data.length : Int),
      vfs.setFs () ((vfs.filesystems ()).update inode.ino fun inode => inode.splice 0 data)) := by
    unfold VFS.writePath
    rw [(h.resolve?_eq hpath _).mpr hwalk]
    dsimp only
    rw [hwrite]
  have hafter := h.writePath path data
  rw [hresult] at hafter ⊢
  refine ⟨rfl, (hafter.stat_eq_some hpath).mpr ?_⟩
  rw [filesystems_setFs]
  have hentry : InodeTable.Entry ((vfs.filesystems ()).inodes.modify inode.ino fun inode =>
      inode.splice 0 data) = (vfs.filesystems ()).inodes.Entry :=
    InodeTable.entry_modify fun _ => rfl
  have hget : (vfs.filesystems ()).inodes.get? inode.ino = some inode := hlookup
  constructor
  · change Walk (InodeTable.Entry (Dict.modify _ _ _)) 1 _ inode.ino
    rw [hentry]
    exact hwalk
  · simp [TmpFS.update, TmpFS.lookup, Inode.splice, Dict.get?_modify, hget]

theorem writePath_neg (h : Rooted vfs) (hpath : Normalized '/' path) {inode : Inode}
    (hstat : vfs.stat path = some inode) (hother : inode.itype ≠ .file) (data : Bytes) :
    (vfs.writePath path data).1 < 0 := by
  obtain ⟨hwalk, hlookup⟩ := (h.stat_eq_some hpath).mp hstat
  have hresult : (vfs.writePath path data).1 =
      (InodeTable.write (-2) (vfs.filesystems ()).inodes inode.ino 0 data).1 := by
    unfold VFS.writePath
    rw [(h.resolve?_eq hpath _).mpr hwalk]
    rfl
  rcases InodeTable.write_cases (-2) (vfs.filesystems ()).inodes inode.ino 0 data with
    ⟨inode', hget, hregular, -⟩ | ⟨-, -, hcode⟩
  · cases hlookup.symm.trans hget
    exact absurd hregular hother
  · omega

theorem writesBack_iff (h : Rooted vfs) (hpath : Normalized '/' path) (data : Bytes) :
    WritesBack vfs path data ↔ vfs.NotLonger path data := by
  cases hstat : vfs.stat path with
  | none =>
      refine iff_of_true (h.writesBack_of_none hpath hstat data) fun inode hinode => ?_
      rw [hstat] at hinode
      cases hinode
  | some inode =>
      by_cases hregular : inode.itype = .file
      · obtain ⟨hcount, hafter⟩ := h.stat_writePath hpath hstat hregular data
        have hdata : (inode.splice 0 data).data = data ++ inode.data.drop data.length := by
          rw [Inode.splice_data, spliceAt_zero]
        constructor
        · intro hback inode' hinode' _
          cases hstat.symm.trans hinode'
          have hsize := (hback (by omega)).2
          rw [hafter, Option.map_some, Inode.splice_size, hdata, List.length_append,
            List.length_drop] at hsize
          have hsum := Option.some.inj hsize
          omega
        · intro hshort _
          have htail : inode.data.drop data.length = [] :=
            List.drop_eq_nil_of_le (hshort inode hstat hregular)
          rw [htail, List.append_nil] at hdata
          constructor
          · intro n hn
            rw [(h.writePath path data).readPath_eq hpath hafter hregular (by omega), hdata,
              List.take_of_length_le (by omega)]
          · rw [hafter, Option.map_some, Inode.splice_size, hdata]
      · have hneg := h.writePath_neg hpath hstat hregular data
        refine iff_of_true (fun hresult => ?_) fun inode' hinode' hfile => ?_
        · omega
        · cases hstat.symm.trans hinode'
          exact absurd hfile hregular

end Rooted

/-- In every state reached, data written by path are read back by path exactly when the file
was not there or was not longer than the data. -/
theorem writePath_readPath_iff (source : Str) (actions : List Action) {path : Str}
    (hpath : Normalized '/' path) (data : Bytes) :
    let vfs := run act (rootVfs source) actions
    WritesBack vfs path data ↔ vfs.NotLonger path data := by
  intro vfs
  have h : Ready vfs := run_invariant ready_act (ready_rootVfs source) actions
  exact h.rooted.writesBack_iff hpath data

/-- Two bytes replace the first two of five. -/
theorem writePath_leaves_tail :
    let vfs := run act (rootVfs "tmpfs".toList)
      [.create (.createFile "/f".toList [104, 101, 108, 108, 111])]
    Normalized '/' "/f".toList ∧ (vfs.writePath "/f".toList [104, 105]).1 = 2 ∧
    (vfs.writePath "/f".toList [104, 105]).2.readPath "/f".toList 4096 =
      some [104, 105, 108, 108, 111] ∧
    ¬ WritesBack vfs "/f".toList [104, 105] := by
  intro vfs
  have hread : (vfs.writePath "/f".toList [104, 105]).2.readPath "/f".toList 4096 =
      some [104, 105, 108, 108, 111] := by decide
  refine ⟨Or.inr ⟨"f".toList, rfl, by decide⟩, by decide, hread, fun hback => ?_⟩
  have hsame := (hback (by decide)).1 4096 (by decide)
  rw [hread] at hsame
  cases hsame

theorem writePath_readPath_iff_longer :
    let vfs := run act (rootVfs "tmpfs".toList)
      [.create (.createFile "/f".toList [104, 101, 108, 108, 111])]
    WritesBack vfs "/f".toList [104, 101, 108, 108, 111, 33] := by
  have hpath : Normalized '/' "/f".toList := Or.inr ⟨"f".toList, rfl, by decide⟩
  refine (writePath_readPath_iff "tmpfs".toList
    [.create (.createFile "/f".toList [104, 101, 108, 108, 111])] hpath _).mpr ?_
  intro inode hinode _
  have hdata : some inode.data = some [104, 101, 108, 108, 111] :=
    congrArg (Option.map Inode.data) hinode.symm
  rw [Option.some.inj hdata]
  decide

end ComputeKernel.Vfs.VFS
