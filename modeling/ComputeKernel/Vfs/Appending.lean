import ComputeKernel.Vfs.Positions

/-!
# Descriptors opened for appending

Such a descriptor is put at the end of the file when it is opened, and from then on only its
own calls move it.  It appends for as long as nothing else makes the file longer.
-/

namespace ComputeKernel.Vfs

open Lib Lib.Run Fs

theorem spliceAt_eq_append_iff (old : Bytes) {offset : Int} (hlow : 0 ≤ offset)
    (hhigh : offset ≤ old.length) (data : Bytes) :
    spliceAt old offset data = old ++ data ↔ data = [] ∨ offset = old.length := by
  constructor
  · intro happend
    have hlength := congrArg List.length happend
    rw [length_spliceAt old hlow, List.length_append] at hlength
    by_cases hempty : data = []
    · exact Or.inl hempty
    · have hpos := List.length_pos_iff.mpr hempty
      exact Or.inr (by omega)
  · rintro (rfl | rfl)
    · rw [spliceAt_nil old hlow hhigh, List.append_nil]
    · exact spliceAt_length old data

namespace VFS

structure OpenForAppend (vfs : VFS Unit TmpFS) (fd : Int) (file : OpenFile) (inode : Inode) :
    Prop where
  opened : vfs.openFiles.get? fd = some file
  flags : 'a' ∈ file.flags
  there : (vfs.filesystems ()).inodes.get? file.ino = some inode
  regular : inode.itype = .file

def Appends (vfs : VFS Unit TmpFS) : Action → Prop
  | .write fd data => ∀ file inode, OpenForAppend vfs fd file inode → ∃ inode',
      ((vfs.write fd data).2.filesystems ()).inodes.get? file.ino = some inode' ∧
        inode'.data = inode.data ++ data
  | _ => True

def AtEnd (vfs : VFS Unit TmpFS) : Action → Prop
  | .write fd data => ∀ file inode, OpenForAppend vfs fd file inode →
      data = [] ∨ file.position = inode.data.length
  | _ => True

namespace Placed

variable {vfs : VFS Unit TmpFS}

theorem appends_iff (h : Placed vfs) (action : Action) :
    Appends vfs action ↔ AtEnd vfs action := by
  cases action with
  | write fd data =>
      refine forall_congr' fun file => forall_congr' fun inode => imp_congr_right fun hopen => ?_
      obtain ⟨inode', hget', hlow, hhigh⟩ := h.stands fd file hopen.opened
      cases hopen.there.symm.trans hget'
      rw [h.ready.rooted.get?_write hopen.opened hopen.there hopen.regular data,
        ← spliceAt_eq_append_iff inode.data hlow hhigh data]
      simp
  | create op => exact Iff.rfl
  | open_ path flags => exact Iff.rfl
  | read fd size => exact Iff.rfl
  | close fd => exact Iff.rfl
  | driver op => exact Iff.rfl

end Placed

/-! ## Interleaved writers -/

def At (vfs : VFS Unit TmpFS) (fd ino position : Int) : Prop :=
  ∃ file, vfs.openFiles.get? fd = some file ∧ file.ino = ino ∧ file.position = position

theorem Placed.write_at {vfs : VFS Unit TmpFS} (h : Placed vfs) {fd ino position : Int}
    (hat : At vfs fd ino position) {content : Bytes} (hfile : vfs.HasFile ino content)
    (data : Bytes) :
    HasFile (vfs.write fd data).2 ino (spliceAt content position data) ∧
      At (vfs.write fd data).2 fd ino (position + data.length) ∧
      ∀ other place, other ≠ fd → At vfs other ino place →
        At (vfs.write fd data).2 other ino place := by
  obtain ⟨file, hopen, rfl, rfl⟩ := hat
  obtain ⟨inode, hget, hregular, rfl⟩ := hfile
  have hwrite := h.ready.rooted.write_eq hopen hget hregular data
  refine ⟨⟨_, h.ready.rooted.get?_write hopen hget hregular data, hregular, rfl⟩, ?_, ?_⟩
  · refine ⟨{ file with position := file.position + data.length }, ?_, rfl, rfl⟩
    rw [hwrite, get?_advance]
    change (vfs.openFiles.get? fd).map _ = _
    rw [hopen, Option.map_some, if_pos rfl]
  · rintro other place hother ⟨file', hopen', hrest⟩
    refine ⟨file', ?_, hrest⟩
    rw [write_sameExcept vfs fd data other hother, hopen']

end VFS

/-- The VFS, and what a file should hold after the writes so far. -/
structure Log where
  vfs : VFS Unit TmpFS
  content : Bytes

namespace Log

open VFS

def step (s : Log) (write : Int × Bytes) : Log :=
  ⟨(s.vfs.write write.1 write.2).2, s.content ++ write.2⟩

def Kept (ino : Int) (s : Log) : Prop :=
  s.vfs.HasFile ino s.content

/-- The descriptor `fd` is at the end of the file, the other writers are before it. -/
def Leads (fd ino : Int) (s : Log) (writes : List (Int × Bytes)) : Prop :=
  ∀ write ∈ writes, ∃ position, At s.vfs write.1 ino position ∧
    (write.1 = fd → position = s.content.length) ∧
    (write.1 ≠ fd → position < s.content.length)

theorem content_run (s : Log) (writes : List (Int × Bytes)) :
    (run step s writes).content = s.content ++ (writes.map Prod.snd).flatten := by
  induction writes generalizing s with
  | nil => simp
  | cons write writes ih => simp [ih, step]

section Writers

variable {s : Log} {ino : Int}

theorem placed_step (h : Placed s.vfs) (write : Int × Bytes) : Placed (s.step write).vfs :=
  h.write write.1 write.2

theorem step_nil (h : Placed s.vfs) (hkept : s.Kept ino) {fd position : Int}
    (hat : At s.vfs fd ino position) :
    (s.step (fd, [])).Kept ino ∧
      ∀ other place, At s.vfs other ino place → At (s.step (fd, [])).vfs other ino place := by
  obtain ⟨hfile, hself, hothers⟩ := h.write_at hat hkept []
  obtain ⟨file, hopen, rfl, rfl⟩ := hat
  obtain ⟨inode, hget, -, hdata⟩ := hkept
  obtain ⟨inode', hget', hlow, hhigh⟩ := h.stands fd file hopen
  cases hget.symm.trans hget'
  constructor
  · rw [hdata] at hhigh
    rw [spliceAt_nil _ hlow hhigh] at hfile
    rw [Kept, step, List.append_nil]
    exact hfile
  · intro other place hother
    by_cases hsame : other = fd
    · subst hsame
      obtain ⟨file', hopen', -, rfl⟩ := hother
      cases hopen.symm.trans hopen'
      rw [List.length_nil, Int.natCast_zero, Int.add_zero] at hself
      exact hself
    · exact hothers other place hsame hother

theorem step_end (h : Placed s.vfs) (hkept : s.Kept ino) {fd : Int} {data : Bytes}
    (hne : data ≠ []) (hat : At s.vfs fd ino s.content.length) {writes : List (Int × Bytes)}
    (hwriters : ∀ write ∈ writes, ∃ position, At s.vfs write.1 ino position ∧
      position ≤ s.content.length) :
    (s.step (fd, data)).Kept ino ∧ (s.step (fd, data)).Leads fd ino writes := by
  obtain ⟨hfile, hself, hothers⟩ := h.write_at hat hkept data
  have hpos := List.length_pos_iff.mpr hne
  have hlength : ((s.content ++ data).length : Int) = s.content.length + data.length := by
    rw [List.length_append, Int.natCast_add]
  constructor
  · rw [spliceAt_length] at hfile
    exact hfile
  · intro write hmem
    by_cases hsame : write.1 = fd
    · refine ⟨s.content.length + data.length, ?_, fun _ => hlength.symm,
        fun hne => absurd hsame hne⟩
      rw [hsame]
      exact hself
    · obtain ⟨position, hposition, hle⟩ := hwriters write hmem
      refine ⟨position, hothers _ _ hsame hposition, fun heq => absurd heq hsame, fun _ => ?_⟩
      change position < ((s.content ++ data).length : Int)
      omega

theorem not_kept_step (h : Placed s.vfs) (hkept : s.Kept ino) {fd position : Int} {data : Bytes}
    (hne : data ≠ []) (hat : At s.vfs fd ino position) (hbefore : position < s.content.length) :
    ¬ (s.step (fd, data)).Kept ino := by
  intro hafter
  obtain ⟨inode, hget, -, hdata⟩ := (h.write_at hat hkept data).1
  obtain ⟨inode', hget', -, hdata'⟩ := hafter
  cases hget.symm.trans hget'
  have happend : spliceAt s.content position data = s.content ++ data := hdata.symm.trans hdata'
  obtain ⟨file, hopen, rfl, rfl⟩ := hat
  obtain ⟨inode, hget, hlow, -⟩ := h.stands fd file hopen
  rcases (spliceAt_eq_append_iff _ hlow (Int.le_of_lt hbefore) data).mp happend with hnil | hend
  · exact hne hnil
  · omega

/-- Once one writer leads, the content is kept only by its writes. -/
theorem always_kept_iff_of_leads (h : Placed s.vfs) (hkept : s.Kept ino) {fd : Int}
    {writes : List (Int × Bytes)} (hleads : s.Leads fd ino writes) :
    Always step (Kept ino) s writes ↔ ∀ write ∈ writes, write.2 ≠ [] → write.1 = fd := by
  induction writes generalizing s with
  | nil => exact iff_of_true hkept (by simp)
  | cons write writes ih =>
      obtain ⟨writer, data⟩ := write
      obtain ⟨⟨position, hat, hlast, hbefore⟩, hrest⟩ := List.forall_mem_cons.mp hleads
      change s.Kept ino ∧ _ ↔ _
      rw [and_iff_right hkept, List.forall_mem_cons]
      by_cases hempty : data = []
      · subst hempty
        obtain ⟨hkept', hsame⟩ := step_nil h hkept hat
        have hleads' : (s.step (writer, [])).Leads fd ino writes := by
          intro write hmem
          obtain ⟨place, hplace, hlength⟩ := hrest write hmem
          refine ⟨place, hsame _ _ hplace, ?_⟩
          rw [step, List.append_nil]
          exact hlength
        rw [ih (placed_step h _) hkept' hleads']
        exact (and_iff_right fun hne => absurd rfl hne).symm
      · by_cases hwriter : writer = fd
        · subst hwriter
          have hat := hlast rfl ▸ hat
          have hwriters : ∀ write ∈ writes, ∃ place, At s.vfs write.1 ino place ∧
              place ≤ s.content.length := by
            intro write hmem
            obtain ⟨place, hplace, hequal, hless⟩ := hrest write hmem
            refine ⟨place, hplace, ?_⟩
            by_cases hsame : write.1 = writer
            · exact Int.le_of_eq (hequal hsame)
            · exact Int.le_of_lt (hless hsame)
          obtain ⟨hkept', hleads'⟩ := step_end h hkept hempty hat hwriters
          rw [ih (placed_step h _) hkept' hleads']
          exact (and_iff_right fun _ => rfl).symm
        · refine iff_of_false (fun hall => ?_) fun hall => hwriter (hall.1 hempty)
          exact not_kept_step h hkept hempty hat (hbefore hwriter) (always_head hall)

theorem always_kept_iff (h : Placed s.vfs) (hkept : s.Kept ino) {writes : List (Int × Bytes)}
    (hend : ∀ write ∈ writes, At s.vfs write.1 ino s.content.length) :
    Always step (Kept ino) s writes ↔ ∃ fd, ∀ write ∈ writes, write.2 ≠ [] → write.1 = fd := by
  induction writes generalizing s with
  | nil => exact iff_of_true hkept ⟨0, by simp⟩
  | cons write writes ih =>
      obtain ⟨writer, data⟩ := write
      obtain ⟨hat, hrest⟩ := List.forall_mem_cons.mp hend
      change s.Kept ino ∧ _ ↔ _
      rw [and_iff_right hkept]
      by_cases hempty : data = []
      · subst hempty
        obtain ⟨hkept', hsame⟩ := step_nil h hkept hat
        have hend' : ∀ write ∈ writes,
            At (s.step (writer, [])).vfs write.1 ino (s.step (writer, [])).content.length := by
          intro write hmem
          have hplace := hsame _ _ (hrest write hmem)
          rw [step, List.append_nil]
          exact hplace
        rw [ih (placed_step h _) hkept' hend']
        simp
      · obtain ⟨hkept', hleads⟩ := step_end h hkept hempty hat fun write hmem =>
          ⟨_, hrest write hmem, Int.le_refl _⟩
        rw [always_kept_iff_of_leads (placed_step h _) hkept' hleads]
        constructor
        · exact fun hall => ⟨writer, List.forall_mem_cons.mpr ⟨fun _ => rfl, hall⟩⟩
        · rintro ⟨fd, hall⟩
          obtain ⟨hfirst, hothers⟩ := List.forall_mem_cons.mp hall
          rw [hfirst hempty]
          exact hothers

end Writers

end Log

namespace VFS

/-- In every run, the writes for appending append exactly when each of them has no data or
finds its descriptor at the end.  Writers of one file that have just been opened for appending
lose nothing, whatever the order of their calls, exactly when one of them writes all the data. -/
theorem appends_iff_atEnd (source : Str) (setup : List Action) :
    let vfs := run act (rootVfs source) setup
    (∀ actions, Guarded act Appends vfs actions ↔ Guarded act AtEnd vfs actions) ∧
    ∀ ino content (writes : List (Int × Bytes)), vfs.HasFile ino content →
      (∀ write ∈ writes, ∃ file inode, OpenForAppend vfs write.1 file inode ∧ file.ino = ino ∧
        file.position = content.length) →
      (Always Log.step (Log.Kept ino) ⟨vfs, content⟩ writes ↔
        ∃ fd, ∀ write ∈ writes, write.2 ≠ [] → write.1 = fd) ∧
      (run Log.step ⟨vfs, content⟩ writes).content =
        content ++ (writes.map Prod.snd).flatten := by
  intro vfs
  have h : Placed vfs := placed_run source setup
  have hstep : ∀ (vfs : VFS Unit TmpFS) (action : Action), Placed vfs → Placed (vfs.act action) :=
    fun _ action h => h.act action
  constructor
  · intro actions
    constructor
    · exact guarded_of_invariant (fun vfs action h _ => hstep vfs action h)
        (fun vfs action h => (h.appends_iff action).mp) h
    · exact guarded_of_invariant (fun vfs action h _ => hstep vfs action h)
        (fun vfs action h => (h.appends_iff action).mpr) h
  · intro ino content writes hfile hwriters
    refine ⟨Log.always_kept_iff (s := ⟨vfs, content⟩) h hfile ?_, Log.content_run _ writes⟩
    intro write hmem
    obtain ⟨file, inode, hopen, hino, hposition⟩ := hwriters write hmem
    exact ⟨file, hopen.opened, hino, hposition⟩

/-- Two descriptors of an empty file, and one byte through each: the second byte replaces
the first. -/
theorem append_overwrites :
    let vfs := run act (rootVfs "tmpfs".toList)
      [.create (.createFile "/log".toList []), .open_ "/log".toList "a".toList,
        .open_ "/log".toList "a".toList]
    (run act vfs [.write 3 [1], .write 4 [2]]).readPath "/log".toList 4096 = some [2] ∧
    ¬ Guarded act Appends vfs [.write 3 [1], .write 4 [2]] ∧
    ¬ Always Log.step (Log.Kept 2) ⟨vfs, []⟩ [(3, [1]), (4, [2])] := by
  intro vfs
  refine ⟨by decide, fun hguarded => ?_, fun halways => ?_⟩
  · have hopen : OpenForAppend (vfs.act (.write 3 [1])) 4 (freshFile 4 "/log".toList 2 "a".toList)
        { ino := 2, size := 1, data := [1] } :=
      { opened := by decide
        flags := by decide
        there := by decide
        regular := rfl }
    obtain ⟨inode, hget, hdata⟩ := hguarded.2.1 _ _ hopen
    have hsecond : some inode.data = some [2] := congrArg (Option.map Inode.data) hget.symm
    rw [hdata] at hsecond
    cases hsecond
  · obtain ⟨inode, hget, -, hdata⟩ := halways.2.2
    have hsecond : some inode.data = some [2] := congrArg (Option.map Inode.data) hget.symm
    rw [hdata] at hsecond
    cases hsecond

end VFS

end ComputeKernel.Vfs
