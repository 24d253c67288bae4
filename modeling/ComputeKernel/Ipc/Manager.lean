import ComputeKernel.Ipc.Pipe
import ComputeKernel.Ipc.Signals
import ComputeKernel.Vfs.Creation
import ComputeKernel.Vfs.Descriptors

/-!
# The IPC manager

Pipe ends are numbered from 100 and descriptors of open files from 3, each by a counter of
its own, so the numbers can meet.
-/

namespace ComputeKernel.Ipc

open Lib Lib.Run Fs Vfs

/-- Both ends of a pipe lead to one pipe object. -/
structure IpcManager where
  objects : List Pipe
  pipes : Dict Int Nat
  signalTables : Dict Int SignalTable
  nextPipeFd : Int

namespace IpcManager

def init : IpcManager where
  objects := []
  pipes := Dict.empty
  signalTables := Dict.empty
  nextPipeFd := 100

def createPipe (m : IpcManager) : Pipe × IpcManager :=
  let readFd := m.nextPipeFd
  let writeFd := m.nextPipeFd + 1
  let pipe : Pipe := { readFd := readFd, writeFd := writeFd }
  (pipe,
    { m with
      objects := m.objects ++ [pipe]
      pipes := (m.pipes.set readFd m.objects.length).set writeFd m.objects.length
      nextPipeFd := m.nextPipeFd + 2 })

def getPipe (m : IpcManager) (fd : Int) : Option Pipe :=
  (m.pipes.get? fd).bind fun i => m.objects[i]?

def createSignalTable (m : IpcManager) (pid : Int) : SignalTable × IpcManager :=
  let table := SignalTable.init pid
  (table, { m with signalTables := m.signalTables.set pid table })

def sendSignal (m : IpcManager) (pid : Int) (sig : Signal) : Bool × IpcManager :=
  match m.signalTables.get? pid with
  | none => (false, m)
  | some table => (true, { m with signalTables := m.signalTables.set pid (table.send sig) })

def hasPendingSignals (m : IpcManager) (pid : Int) : Bool :=
  match m.signalTables.get? pid with
  | none => false
  | some table => table.hasPending

def nextSignal (m : IpcManager) (pid : Int) : Option Signal × IpcManager :=
  match m.signalTables.get? pid with
  | none => (none, m)
  | some table =>
      (table.nextSignal.1,
        { m with signalTables := m.signalTables.set pid table.nextSignal.2 })

def ends (m : IpcManager) : List Int :=
  m.objects.flatMap fun pipe => [pipe.readFd, pipe.writeFd]

/-- The pipes have the numbers from 100 up to the next one, two each. -/
structure Numbered (m : IpcManager) : Prop where
  ends : m.ends = (List.range (2 * m.objects.length)).map fun (i : Nat) => (100 : Int) + i
  next : m.nextPipeFd = 100 + 2 * m.objects.length
  keys : ∀ fd, fd ∈ m.pipes ↔ fd ∈ m.ends
  found : ∀ fd i, m.pipes.get? fd = some i →
    ∃ pipe, m.objects[i]? = some pipe ∧ (fd = pipe.readFd ∨ fd = pipe.writeFd)

theorem numbered_init : init.Numbered where
  ends := rfl
  next := rfl
  keys := by simp [init, ends]
  found := by
    intro fd i h
    cases h

theorem ends_createPipe (m : IpcManager) :
    m.createPipe.2.ends = m.ends ++ [m.nextPipeFd, m.nextPipeFd + 1] := by
  change (m.objects ++ [m.createPipe.1]).flatMap _ = _
  rw [List.flatMap_append]
  rfl

theorem Numbered.createPipe {m : IpcManager} (h : m.Numbered) : m.createPipe.2.Numbered where
  ends := by
    have hlength : m.createPipe.2.objects.length = m.objects.length + 1 :=
      List.length_append
    have htwo : 2 * (m.objects.length + 1) = 2 * m.objects.length + 1 + 1 := by omega
    rw [ends_createPipe, h.ends, h.next, hlength, htwo, List.range_succ, List.range_succ,
      List.map_append, List.map_append, List.append_assoc]
    congr 1
  next := by
    have hlength : m.createPipe.2.objects.length = m.objects.length + 1 :=
      List.length_append
    have hnext : m.createPipe.2.nextPipeFd = m.nextPipeFd + 2 := rfl
    rw [hnext, hlength, h.next]
    omega
  keys := by
    intro fd
    rw [ends_createPipe, List.mem_append, ← h.keys]
    change fd ∈ (m.pipes.set _ _).set _ _ ↔ _
    simp only [Dict.mem_set, List.mem_cons, List.not_mem_nil, or_false]
    tauto
  found := by
    intro fd i hget
    have hold : ∀ (j : Nat) (pipe : Pipe), m.objects[j]? = some pipe →
        m.createPipe.2.objects[j]? = some pipe := by
      intro j pipe hj
      obtain ⟨hlt, -⟩ := List.getElem?_eq_some_iff.mp hj
      exact (List.getElem?_append_left hlt).trans hj
    have hnew : m.createPipe.2.objects[m.objects.length]? = some m.createPipe.1 :=
      List.getElem?_concat_length
    change ((m.pipes.set m.nextPipeFd m.objects.length).set (m.nextPipeFd + 1)
      m.objects.length).get? fd = some i at hget
    rw [Dict.get?_set, Dict.get?_set] at hget
    split at hget
    · rename_i hwrite
      cases hget
      exact ⟨_, hnew, Or.inr hwrite⟩
    · split at hget
      · rename_i hread
        cases hget
        exact ⟨_, hnew, Or.inl hread⟩
      · obtain ⟨pipe, hpipe, hfd⟩ := h.found fd i hget
        exact ⟨pipe, hold i pipe hpipe, hfd⟩

theorem Numbered.ends_nodup {m : IpcManager} (h : m.Numbered) : m.ends.Nodup := by
  rw [h.ends]
  exact List.nodup_range.map fun a b hab => by omega

theorem Numbered.mem_ends {m : IpcManager} (h : m.Numbered) {fd : Int} :
    fd ∈ m.ends ↔ 100 ≤ fd ∧ fd < m.nextPipeFd := by
  rw [h.ends, h.next, List.mem_map]
  constructor
  · rintro ⟨i, hi, rfl⟩
    have := List.mem_range.mp hi
    omega
  · rintro ⟨hlo, hhi⟩
    exact ⟨(fd - 100).toNat, List.mem_range.mpr (by omega), by omega⟩

/-! ## Signals of several processes -/

/-- A call for the signal table of a process; the mask is changed on the table itself. -/
def performSignal (m : IpcManager) : Int × SignalTable.Call → IpcManager
  | (pid, .send sig) => (m.sendSignal pid sig).2
  | (pid, .nextSignal) => (m.nextSignal pid).2
  | (pid, .block sig) =>
      { m with signalTables := m.signalTables.modify pid fun table => table.block sig }
  | (pid, .unblock sig) =>
      { m with signalTables := m.signalTables.modify pid fun table => table.unblock sig }

end IpcManager

end ComputeKernel.Ipc

namespace ComputeKernel.Vfs.VFS

open Lib Fs

variable {ρ F : Type} [Filesystem F] [DecidableEq ρ]

/-- The path names an inode, and where the flags ask for writing in a directory, a file can
be created or is there. -/
def Opens (vfs : VFS ρ F) (path flags : Str) : Prop :=
  ∃ ref ino inode, vfs.resolve? path = some (ref, ino) ∧
    Filesystem.lookup (vfs.filesystems ref) ino = some inode ∧
    (('w' ∈ flags ∨ 'a' ∈ flags) ∧ inode.itype = .dir → ∀ message,
      (Filesystem.create (vfs.filesystems ref) ino (baseName path) .file).1 ≠
        .error (.valueError message))

theorem mem_openFiles_open (vfs : VFS ρ F) (path flags : Str) :
    (vfs.Opens path flags ∧
      ∀ fd, fd ∈ (vfs.open_ path flags).2.openFiles ↔ fd = vfs.nextFd ∨ fd ∈ vfs.openFiles) ∨
    (¬ vfs.Opens path flags ∧
      ∀ fd, fd ∈ (vfs.open_ path flags).2.openFiles ↔ fd ∈ vfs.openFiles) := by
  unfold open_ Opens
  cases hresolve : vfs.resolve? path with
  | none => exact Or.inr ⟨by simp, fun fd => Iff.rfl⟩
  | some found =>
      rcases found with ⟨ref, ino⟩
      dsimp only
      cases hlookup : Filesystem.lookup (vfs.filesystems ref) ino with
      | none =>
          refine Or.inr ⟨?_, fun fd => Iff.rfl⟩
          rintro ⟨ref', ino', inode, hfound, hinode, -⟩
          cases hfound
          rw [hlookup] at hinode
          cases hinode
      | some inode =>
          dsimp only
          split
          · rename_i hdir
            rcases hcreate : Filesystem.create (vfs.filesystems ref) ino (baseName path) .file with
              ⟨result, fs⟩
            cases result with
            | ok child =>
                refine Or.inl ⟨⟨ref, ino, inode, rfl, hlookup, ?_⟩, fun fd => Dict.mem_set⟩
                intro _ message herror
                rw [hcreate] at herror
                cases herror
            | error error =>
                cases error with
                | fileExistsError text =>
                    refine Or.inl ⟨⟨ref, ino, inode, rfl, hlookup, ?_⟩, fun fd => Dict.mem_set⟩
                    intro _ message herror
                    rw [hcreate] at herror
                    cases herror
                | valueError text =>
                    refine Or.inr ⟨?_, fun fd => Iff.rfl⟩
                    rintro ⟨ref', ino', inode', hfound, hinode, hraises⟩
                    cases hfound
                    rw [hlookup] at hinode
                    cases hinode
                    exact hraises hdir text (congrArg Prod.fst hcreate)
          · rename_i hdir
            exact Or.inl ⟨⟨ref, ino, inode, rfl, hlookup, fun h => absurd h hdir⟩,
              fun fd => Dict.mem_set⟩

end ComputeKernel.Vfs.VFS

namespace ComputeKernel.Ipc

open Lib Lib.Run Fs Vfs

structure Numbers (ρ F : Type) where
  vfs : VFS ρ F
  ipc : IpcManager

namespace Numbers

variable {ρ F : Type}

def start (filesystems : ρ → F) (mounts : List (MountPoint ρ)) : Numbers ρ F where
  vfs := { VFS.init filesystems with mounts := mounts }
  ipc := IpcManager.init

inductive Call
  | open_ (path flags : Str)
  | close (fd : Int)
  | createPipe
  deriving DecidableEq

def Unique (s : Numbers ρ F) : Prop :=
  (∀ fd, ¬ (fd ∈ s.vfs.openFiles ∧ fd ∈ s.ipc.ends)) ∧ s.ipc.ends.Nodup

variable [Filesystem F] [DecidableEq ρ]

def step (s : Numbers ρ F) : Call → Numbers ρ F
  | .open_ path flags => { s with vfs := (s.vfs.open_ path flags).2 }
  | .close fd => { s with vfs := (s.vfs.close fd).2 }
  | .createPipe => { s with ipc := s.ipc.createPipe.2 }

/-- A file is not opened while the next descriptor is the number of a pipe end, and no pipe
is created while one of its two numbers is an open file's. -/
def Permits (s : Numbers ρ F) : Call → Prop
  | .open_ path flags =>
      s.vfs.Opens path flags → ¬ (100 ≤ s.vfs.nextFd ∧ s.vfs.nextFd < s.ipc.nextPipeFd)
  | .close _ => True
  | .createPipe =>
      s.ipc.nextPipeFd ∉ s.vfs.openFiles ∧ s.ipc.nextPipeFd + 1 ∉ s.vfs.openFiles

theorem numbered_step (s : Numbers ρ F) (call : Call) (h : s.ipc.Numbered) :
    (s.step call).ipc.Numbered := by
  cases call with
  | open_ path flags => exact h
  | close fd => exact h
  | createPipe => exact h.createPipe

theorem unique_open_iff {s : Numbers ρ F} (hnum : s.ipc.Numbered) (h : s.Unique)
    (path flags : Str) :
    (s.step (.open_ path flags)).Unique ↔ s.Permits (.open_ path flags) := by
  change _ ↔ (s.vfs.Opens path flags → _)
  rw [← hnum.mem_ends]
  rcases s.vfs.mem_openFiles_open path flags with ⟨hopens, hkeys⟩ | ⟨hopens, hkeys⟩
  · constructor
    · rintro ⟨hfresh, -⟩ _ hmem
      exact hfresh s.vfs.nextFd ⟨(hkeys _).mpr (Or.inl rfl), hmem⟩
    · intro hfresh
      refine ⟨?_, h.2⟩
      rintro fd ⟨hfd, hmem⟩
      rcases (hkeys fd).mp hfd with hnew | hold
      · rw [hnew] at hmem
        exact hfresh hopens hmem
      · exact h.1 fd ⟨hold, hmem⟩
  · refine iff_of_true ⟨?_, h.2⟩ fun habsurd => absurd habsurd hopens
    rintro fd ⟨hfd, hmem⟩
    exact h.1 fd ⟨(hkeys fd).mp hfd, hmem⟩

theorem unique_close {s : Numbers ρ F} (h : s.Unique) (closed : Int) :
    (s.step (.close closed)).Unique := by
  refine ⟨?_, h.2⟩
  rintro fd ⟨hfd, hmem⟩
  exact h.1 fd ⟨((s.vfs.mem_openFiles_close closed fd).mp hfd).2, hmem⟩

theorem unique_createPipe_iff {s : Numbers ρ F} (hnum : s.ipc.Numbered) (h : s.Unique) :
    (s.step .createPipe).Unique ↔ s.Permits .createPipe := by
  have hmem : ∀ fd, fd ∈ (s.step .createPipe).ipc.ends ↔
      fd ∈ s.ipc.ends ∨ fd = s.ipc.nextPipeFd ∨ fd = s.ipc.nextPipeFd + 1 := by
    intro fd
    change fd ∈ s.ipc.createPipe.2.ends ↔ _
    rw [IpcManager.ends_createPipe]
    simp
  constructor
  · rintro ⟨hfresh, -⟩
    constructor
    · intro hread
      exact hfresh _ ⟨hread, (hmem _).mpr (Or.inr (Or.inl rfl))⟩
    · intro hwrite
      exact hfresh _ ⟨hwrite, (hmem _).mpr (Or.inr (Or.inr rfl))⟩
  · rintro ⟨hread, hwrite⟩
    refine ⟨?_, hnum.createPipe.ends_nodup⟩
    rintro fd ⟨hfd, hend⟩
    rcases (hmem fd).mp hend with hold | rfl | rfl
    · exact h.1 fd ⟨hfd, hold⟩
    · exact hread hfd
    · exact hwrite hfd

theorem unique_step_iff {s : Numbers ρ F} (hnum : s.ipc.Numbered) (h : s.Unique)
    (call : Call) : (s.step call).Unique ↔ s.Permits call := by
  cases call with
  | open_ path flags => exact unique_open_iff hnum h path flags
  | close fd => exact iff_of_true (unique_close h fd) trivial
  | createPipe => exact unique_createPipe_iff hnum h

/-- Throughout a run the numbers are unique exactly when no call hands out a number that the
other part has given away. -/
theorem always_unique_iff (filesystems : ρ → F) (mounts : List (MountPoint ρ))
    (calls : List Call) :
    Always step Unique (start filesystems mounts) calls ↔
      Guarded step Permits (start filesystems mounts) calls := by
  apply always_iff_guarded_of_invariant numbered_step
  · exact fun s call hnum h hcall => (unique_step_iff hnum h call).mpr hcall
  · exact fun s call hnum h hcall hnext => hcall ((unique_step_iff hnum h call).mp hnext)
  · exact IpcManager.numbered_init
  · exact ⟨fun fd h => absurd h.1 (Dict.not_mem_empty fd), List.nodup_nil⟩

def openRoot : Call :=
  .open_ "/".toList "r".toList

theorem step_openRoot {s : Numbers Unit TmpFS} {source : Str}
    (hmounts : s.vfs.mounts = [⟨"/".toList, (), source⟩])
    (hroot : s.vfs.filesystems = fun _ => TmpFS.init) :
    ∃ file, s.step openRoot =
      { s with vfs := { s.vfs with
          openFiles := s.vfs.openFiles.set s.vfs.nextFd file
          nextFd := s.vfs.nextFd + 1 } } := by
  rcases s with ⟨⟨filesystems, mounts, openFiles, nextFd⟩, ipc⟩
  dsimp only at hmounts hroot
  subst hmounts hroot
  exact ⟨_, rfl⟩

theorem run_openRoot {s : Numbers Unit TmpFS} {source : Str}
    (hmounts : s.vfs.mounts = [⟨"/".toList, (), source⟩])
    (hroot : s.vfs.filesystems = fun _ => TmpFS.init) (n : Nat) :
    ∃ openFiles, run step s (List.replicate n openRoot) =
        { s with vfs := { s.vfs with openFiles := openFiles, nextFd := s.vfs.nextFd + n } } ∧
      ∀ fd, fd ∈ openFiles ↔ fd ∈ s.vfs.openFiles ∨ s.vfs.nextFd ≤ fd ∧ fd < s.vfs.nextFd + n := by
  induction n with
  | zero =>
      refine ⟨s.vfs.openFiles, by simp, fun fd => (or_iff_left ?_).symm⟩
      omega
  | succ n ih =>
      obtain ⟨openFiles, hrun, hkeys⟩ := ih
      rw [List.replicate_succ', run_concat, hrun]
      obtain ⟨file, hstep⟩ := step_openRoot
        (s := { s with vfs := { s.vfs with openFiles := openFiles, nextFd := s.vfs.nextFd + n } })
        hmounts hroot
      refine ⟨openFiles.set (s.vfs.nextFd + n) file, ?_, fun fd => ?_⟩
      · rw [hstep, Int.natCast_succ, Int.add_assoc]
      · rw [Dict.mem_set, hkeys, or_left_comm]
        apply or_congr_right
        omega

/-- One pipe, and as many opened files as there are numbers below its read end, and one
more. -/
theorem numbers_meet :
    let calls : List Call := .createPipe :: List.replicate 98 openRoot
    let s : Numbers Unit TmpFS :=
      start (fun _ => TmpFS.init) [⟨"/".toList, (), "tmpfs".toList⟩]
    (100 : Int) ∈ (run step s calls).vfs.openFiles ∧ (100 : Int) ∈ (run step s calls).ipc.ends ∧
    ¬ Always step Unique s calls := by
  intro calls s
  obtain ⟨openFiles, hrun, hkeys⟩ := run_openRoot (s := s.step .createPipe) rfl rfl 98
  rw [← run_cons] at hrun
  have hopen : (100 : Int) ∈ (run step s calls).vfs.openFiles := by
    rw [hrun]
    exact (hkeys 100).mpr (Or.inr ⟨by decide, by decide⟩)
  have hend : (100 : Int) ∈ (run step s calls).ipc.ends := by
    rw [hrun]
    exact List.mem_cons_self
  refine ⟨hopen, hend, fun h => ?_⟩
  have hlast := always_iff_prefixes.mp h calls (List.prefix_refl calls)
  exact hlast.1 100 ⟨hopen, hend⟩

end Numbers

end ComputeKernel.Ipc
