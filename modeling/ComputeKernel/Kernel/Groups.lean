import ComputeKernel.Kernel.Simulation

/-!
# Groups of processes

A group is a set of process numbers with the children of its members.  The rest of the system
can take descriptors, process numbers and frames, but what it does is not noticed in a group
that asks for none of these, as long as nobody else writes to the files that it has open.
-/

namespace ComputeKernel.Vfs.FileStore

open Lib Fs

structure Extends (s s' : FileStore) : Prop where
  tree : ∀ {names node}, s.tree names = some node → s'.tree names = some node
  handles : s'.handles = s.handles
  nextFd : s'.nextFd = s.nextFd

theorem extends_attach (s : FileStore) (names : List Str) (node : Node) :
    Extends s (s.attach names node) := by
  unfold attach
  split
  · rename_i hcan
    refine ⟨fun {other node'} hother => ?_, rfl, rfl⟩
    refine (Function.update_of_ne ?_ _ _).trans hother
    rintro rfl
    rw [hcan.2.1] at hother
    cases hother
  · exact ⟨id, rfl, rfl⟩

theorem open_cases (s : FileStore) (path flags : Str) :
    s.open_ path flags = (.count (-2), s) ∨
      ∃ s' names, Extends s s' ∧ s.open_ path flags = s'.openAt names flags := by
  unfold open_
  split
  · exact Or.inl rfl
  · refine Or.inr ?_
    split
    · exact ⟨_, _, extends_attach s _ _, rfl⟩
    · exact ⟨s, _, ⟨id, rfl, rfl⟩, rfl⟩

end ComputeKernel.Vfs.FileStore

namespace ComputeKernel.Kernel

open Lib Lib.Run Lib.Service Fs Memory Tasks Vfs VirtualMemoryManager

namespace System

variable (group : Int → Bool)

def OpenIn (s : System) (names : List Str) : Prop :=
  ∃ pid fd position, group pid ∧ s.owner fd = some pid ∧
    s.files.handles fd = some (names, position)

/-- A call whose answer the rest of the system has no part in. -/
def Private (s : System) (pid : Int) : Syscall → Prop
  | .openat _ _ _ => False
  | .fork => False
  | .kill targetPid _ => group targetPid
  | .mmap _ length _ _ => framesFor length ≤ s.free
  | .brk newBrk => framesFor (newBrk - s.brk pid) ≤ s.free
  | _ => True

/-- A call that takes nothing away from the group. -/
def Harmless (s : System) (pid : Int) : Syscall → Prop
  | .write fd _ => ∀ names position, s.files.handles fd = some (names, position) →
      ¬ s.OpenIn group names
  | .fork => group s.pids.alloc.1 = false
  | .wait4 _ _ => ∀ child, s.zombieChild pid = some child → group child = false
  | _ => True

def Spares (s : System) (req : Request) : Prop :=
  if group req.pid then s.Private group req.pid req.call else s.Harmless group req.pid req.call

theorem update_congr {α β : Type} [DecidableEq α] {f g : α → β} {x : α} (h : f x = g x) (a : α)
    (value : β) : Function.update f a value x = Function.update g a value x := by
  by_cases hsame : x = a
  · rw [hsame, Function.update_self, Function.update_self]
  · rw [Function.update_of_ne hsame, Function.update_of_ne hsame, h]

/-- What a group can notice is the same in both. -/
structure Alike (s t : System) : Prop where
  phase : ∀ pid, group pid → s.phase pid = t.phase pid
  children : ∀ pid, group pid → s.children pid = t.children pid
  closed : ∀ pid, group pid → ∀ child ∈ s.children pid, group child
  owner : ∀ pid, group pid → ∀ fd, s.owner fd = some pid ↔ t.owner fd = some pid
  below : ∀ pid, group pid → ∀ fd, s.owner fd = some pid → fd < s.files.nextFd
  handles : ∀ pid, group pid → ∀ fd, s.owner fd = some pid →
    s.files.handles fd = t.files.handles fd
  content : ∀ names, s.OpenIn group names →
    ∃ node, s.files.tree names = some node ∧ t.files.tree names = some node
  starts : ∀ pid, group pid → s.starts pid = t.starts pid
  brk : ∀ pid, group pid → s.brk pid = t.brk pid
  free : s.free ≤ t.free

structure Unnoticed (s s' : System) : Prop where
  phase : ∀ pid, group pid → s'.phase pid = s.phase pid
  children : ∀ pid, group pid → s'.children pid = s.children pid
  owner : ∀ pid, group pid → ∀ fd, s'.owner fd = some pid ↔ s.owner fd = some pid
  nextFd : s.files.nextFd ≤ s'.files.nextFd
  handles : ∀ pid, group pid → ∀ fd, s.owner fd = some pid →
    s'.files.handles fd = s.files.handles fd
  tree : ∀ names, s.OpenIn group names → s'.files.tree names = s.files.tree names
  starts : ∀ pid, group pid → s'.starts pid = s.starts pid
  brk : ∀ pid, group pid → s'.brk pid = s.brk pid
  free : s'.free ≤ s.free

variable {group} {s t : System} {pid : Int}

theorem Unnoticed.refl (s : System) : Unnoticed group s s where
  phase _ _ := rfl
  children _ _ := rfl
  owner _ _ _ := Iff.rfl
  nextFd := Int.le_refl _
  handles _ _ _ _ := rfl
  tree _ _ := rfl
  starts _ _ := rfl
  brk _ _ := rfl
  free := Nat.le_refl _

theorem Unnoticed.openIn_iff {s' : System} (h : Unnoticed group s s') (names : List Str) :
    s'.OpenIn group names ↔ s.OpenIn group names := by
  constructor
  · rintro ⟨pid, fd, position, hpid, howner, hhandle⟩
    have hheld := (h.owner pid hpid fd).mp howner
    exact ⟨pid, fd, position, hpid, hheld, h.handles pid hpid fd hheld ▸ hhandle⟩
  · rintro ⟨pid, fd, position, hpid, howner, hhandle⟩
    exact ⟨pid, fd, position, hpid, (h.owner pid hpid fd).mpr howner,
      (h.handles pid hpid fd howner).trans hhandle⟩

theorem Unnoticed.trans {s' s'' : System} (first : Unnoticed group s s')
    (second : Unnoticed group s' s'') : Unnoticed group s s'' where
  phase pid hpid := (second.phase pid hpid).trans (first.phase pid hpid)
  children pid hpid := (second.children pid hpid).trans (first.children pid hpid)
  owner pid hpid fd := (second.owner pid hpid fd).trans (first.owner pid hpid fd)
  nextFd := first.nextFd.trans second.nextFd
  handles pid hpid fd hfd :=
    (second.handles pid hpid fd ((first.owner pid hpid fd).mpr hfd)).trans
      (first.handles pid hpid fd hfd)
  tree names hopen :=
    (second.tree names ((first.openIn_iff names).mpr hopen)).trans (first.tree names hopen)
  starts pid hpid := (second.starts pid hpid).trans (first.starts pid hpid)
  brk pid hpid := (second.brk pid hpid).trans (first.brk pid hpid)
  free := second.free.trans first.free

theorem Alike.unnoticed (h : Alike group s t) {s' : System} (hs : Unnoticed group s s') :
    Alike group s' t where
  phase pid hpid := (hs.phase pid hpid).trans (h.phase pid hpid)
  children pid hpid := (hs.children pid hpid).trans (h.children pid hpid)
  closed pid hpid := by
    rw [hs.children pid hpid]
    exact h.closed pid hpid
  owner pid hpid fd := (hs.owner pid hpid fd).trans (h.owner pid hpid fd)
  below pid hpid fd hfd := by
    have hlt := h.below pid hpid fd ((hs.owner pid hpid fd).mp hfd)
    have := hs.nextFd
    omega
  handles pid hpid fd hfd := by
    have hheld := (hs.owner pid hpid fd).mp hfd
    exact (hs.handles pid hpid fd hheld).trans (h.handles pid hpid fd hheld)
  content names hopen := by
    have hopen := (hs.openIn_iff names).mp hopen
    rw [hs.tree names hopen]
    exact h.content names hopen
  starts pid hpid := (hs.starts pid hpid).trans (h.starts pid hpid)
  brk pid hpid := (hs.brk pid hpid).trans (h.brk pid hpid)
  free := hs.free.trans h.free

theorem owner_close_iff {owner : Int → Option Int} {fd other fd' : Int} :
    Function.update owner fd none fd' = some other ↔ fd' ≠ fd ∧ owner fd' = some other := by
  by_cases hsame : fd' = fd
  · rw [hsame, Function.update_self]
    exact iff_of_false (Option.some_ne_none other).symm fun hboth => hboth.1 rfl
  · rw [Function.update_of_ne hsame]
    exact (and_iff_right hsame).symm

/-! ## Calls of others -/

theorem unnoticed_put {names : List Str} (hopen : ¬ s.OpenIn group names) (data : Bytes) :
    Unnoticed group s { s with files := s.files.put names data } :=
  { Unnoticed.refl s with
    tree := by
      intro other hother
      refine Function.update_of_ne ?_ _ _
      rintro rfl
      exact hopen hother }

section Others

variable (hpid : group pid = false)
include hpid

theorem ne_of_group {other : Int} (hother : group other) : other ≠ pid := by
  rintro rfl
  rw [hpid] at hother
  cases hother

theorem unnoticed_enter (s : System) (addr : Int) (frames : Nat) :
    Unnoticed group s (s.enter pid addr frames) :=
  { Unnoticed.refl s with
    starts := fun _ hother => Function.update_of_ne (ne_of_group hpid hother) _ _
    free := Nat.sub_le _ _ }

theorem unnoticed_advance {fd : Int} (howner : s.owner fd = some pid) (n : Int) :
    Unnoticed group s { s with files := s.files.advance fd n } :=
  { Unnoticed.refl s with
    handles := by
      intro other hother fd' hfd'
      have hne : fd' ≠ fd := by
        rintro rfl
        rw [howner] at hfd'
        exact ne_of_group hpid hother (Option.some.inj hfd').symm
      change (s.files.handles fd').map _ = _
      cases s.files.handles fd' with
      | none => rfl
      | some handle => rw [Option.map_some, if_neg hne] }

theorem unnoticed_openat (h : Alike group s t) (path flags : Str) :
    Unnoticed group s (s.openat pid path flags).2 := by
  unfold openat
  split
  · exact Unnoticed.refl s
  · rcases s.files.open_cases path flags with hopen | ⟨files, names, hfiles, hopen⟩
    · rw [hopen]
      exact Unnoticed.refl s
    · have hopened : ∀ owner : Int → Option Int,
          (∀ other, group other → ∀ fd, owner fd = some other ↔ s.owner fd = some other) →
          Unnoticed group s { s with files := (files.openAt names flags).2, owner := owner } := by
        intro owner howner
        refine { Unnoticed.refl s with
                 owner := howner, nextFd := ?_, handles := ?_, tree := ?_ }
        · change s.files.nextFd ≤ files.nextFd + 1
          rw [hfiles.nextFd]
          omega
        · intro other hother fd hfd
          have hlt := h.below other hother fd hfd
          change Function.update files.handles files.nextFd _ fd = _
          rw [hfiles.nextFd, hfiles.handles, Function.update_of_ne (by omega)]
        · intro other hother
          obtain ⟨node, hnode, -⟩ := h.content other hother
          exact (hfiles.tree hnode).trans hnode.symm
      rw [hopen]
      dsimp only
      by_cases hfd : (files.openAt names flags).1.size < 0
      · rw [if_pos hfd]
        exact hopened s.owner fun _ _ _ => Iff.rfl
      · rw [if_neg hfd]
        refine hopened _ fun other hother fd => ?_
        change Function.update s.owner files.nextFd (some pid) fd = some other ↔ _
        rw [hfiles.nextFd]
        by_cases hnew : fd = s.files.nextFd
        · rw [hnew, Function.update_self]
          refine iff_of_false (fun heq => ne_of_group hpid hother (Option.some.inj heq).symm) ?_
          intro hheld
          exact Int.lt_irrefl _ (h.below other hother _ hheld)
        · rw [Function.update_of_ne hnew]

theorem unnoticed_close (s : System) (fd : Int) : Unnoticed group s (s.close pid fd).2 := by
  unfold close
  split
  · exact Unnoticed.refl s
  split
  · rename_i howner
    have hother : ∀ other, group other → ∀ fd', s.owner fd' = some other → fd' ≠ fd := by
      rintro other hother fd' hfd' rfl
      rw [howner] at hfd'
      exact ne_of_group hpid hother (Option.some.inj hfd').symm
    refine { Unnoticed.refl s with owner := ?_, handles := ?_ }
    · intro other hgroup fd'
      rw [owner_close_iff]
      exact and_iff_right_of_imp (hother other hgroup fd')
    · intro other hgroup fd' hfd'
      exact Function.update_of_ne (hother other hgroup fd' hfd') _ _
  · exact Unnoticed.refl s

theorem unnoticed_read (s : System) (fd size : Int) : Unnoticed group s (s.read pid fd size).2 := by
  unfold read
  split
  · exact Unnoticed.refl s
  split
  · rename_i howner
    dsimp only
    unfold FileStore.read
    split
    · exact Unnoticed.refl s
    · split
      · exact unnoticed_advance hpid howner _
      · exact Unnoticed.refl s
  · exact Unnoticed.refl s

theorem unnoticed_write (s : System) {fd : Int} (data : Bytes)
    (hopen : ∀ names position, s.files.handles fd = some (names, position) →
      ¬ s.OpenIn group names) : Unnoticed group s (s.write pid fd data).2 := by
  unfold write
  split
  · exact Unnoticed.refl s
  split
  · exact Unnoticed.refl s
  split
  · rename_i howner
    dsimp only
    unfold FileStore.write
    split
    · exact Unnoticed.refl s
    · rename_i names position hhandle
      split
      · rename_i content hcontent
        have hput := unnoticed_put (hopen names position hhandle) (spliceAt content position data)
        refine hput.trans ?_
        apply unnoticed_advance hpid
        exact howner
      · exact Unnoticed.refl s
  · exact Unnoticed.refl s

theorem unnoticed_mmap (s : System) (addr length : Int) :
    Unnoticed group s (s.mmap pid addr length).2 := by
  unfold mmap
  split
  · exact Unnoticed.refl s
  split
  · exact unnoticed_enter hpid s _ _
  · exact Unnoticed.refl s

theorem unnoticed_munmap (s : System) (addr : Int) :
    Unnoticed group s (s.munmap pid addr).2 := by
  unfold munmap
  split
  · exact
      { Unnoticed.refl s with
        starts := fun _ hother => Function.update_of_ne (ne_of_group hpid hother) _ _ }
  · exact Unnoticed.refl s

theorem unnoticed_setBrk (s : System) (newBrk : Int) :
    Unnoticed group s (s.setBrk pid newBrk).2 := by
  unfold setBrk
  dsimp only
  split
  · exact Unnoticed.refl s
  · have hbrk : ∀ other, group other → Function.update s.brk pid newBrk other = s.brk other :=
      fun other hother => Function.update_of_ne (ne_of_group hpid hother) _ _
    split
    · exact { unnoticed_enter hpid s _ _ with brk := hbrk }
    · exact { Unnoticed.refl s with brk := hbrk }

theorem unnoticed_fork (s : System) (hchild : group s.pids.alloc.1 = false) :
    Unnoticed group s (s.fork pid).2 := by
  unfold fork
  split
  · exact Unnoticed.refl s
  · have hnew : ∀ other, group other → other ≠ s.pids.alloc.1 := fun other =>
      ne_of_group hchild
    exact
      { Unnoticed.refl s with
        phase := fun other hother => Function.update_of_ne (hnew other hother) _ _
        children := fun other hother => Function.update_of_ne (ne_of_group hpid hother) _ _
        starts := fun other hother => Function.update_of_ne (hnew other hother) _ _ }

theorem unnoticed_exit (s : System) : Unnoticed group s (s.exit pid).2 := by
  unfold exit
  split
  · exact Unnoticed.refl s
  · exact
      { Unnoticed.refl s with
        phase := fun other hother => Function.update_of_ne (ne_of_group hpid hother) _ _ }
  · exact Unnoticed.refl s

theorem unnoticed_wait4 (s : System)
    (hspared : ∀ child, s.zombieChild pid = some child → group child = false) :
    Unnoticed group s (s.wait4 pid).2 := by
  unfold wait4
  split
  · exact Unnoticed.refl s
  cases hchild : s.zombieChild pid with
  | none => exact Unnoticed.refl s
  | some child =>
      have hgone : ∀ other, group other → other ≠ child := fun other =>
        ne_of_group (hspared child hchild)
      refine
        { Unnoticed.refl s with
          phase := fun other hother => Function.update_of_ne (hgone other hother) _ _
          children := ?_
          owner := ?_ }
      · intro other hother
        change Function.update (Function.update s.children pid _) child [] other = _
        rw [Function.update_of_ne (hgone other hother),
          Function.update_of_ne (ne_of_group hpid hother)]
      · intro other hother fd
        exact owner_reap_iff.trans (and_iff_right (hgone other hother))

theorem unnoticed_serve (h : Alike group s t) {call : Syscall}
    (hharmless : s.Harmless group pid call) : Unnoticed group s (s.serve ⟨pid, call⟩).2 := by
  cases call with
  | read fd size => exact unnoticed_read hpid s fd size
  | write fd data => exact unnoticed_write hpid s data hharmless
  | openat dirfd path flags => exact unnoticed_openat hpid h path flags
  | close fd => exact unnoticed_close hpid s fd
  | mmap addr length flags name => exact unnoticed_mmap hpid s addr length
  | munmap addr length => exact unnoticed_munmap hpid s addr
  | brk newBrk => exact unnoticed_setBrk hpid s newBrk
  | fork => exact unnoticed_fork hpid s hharmless
  | exit code => exact unnoticed_exit hpid s
  | wait4 childPid options => exact unnoticed_wait4 hpid s hharmless
  | _ => exact Unnoticed.refl s

end Others

/-! ## Calls of the group -/

namespace Alike

variable (h : Alike group s t)
include h

theorem advance (fd n : Int) :
    Alike group { s with files := s.files.advance fd n }
      { t with files := t.files.advance fd n } :=
  { h with
    handles := by
      intro pid hpid fd' hfd'
      change (s.files.handles fd').map _ = (t.files.handles fd').map _
      rw [h.handles pid hpid fd' hfd']
    content := by
      rintro names ⟨pid, fd', position, hpid, howner, hhandle⟩
      obtain ⟨handle, hold, hmoved⟩ := Option.map_eq_some_iff.mp hhandle
      refine h.content names ⟨pid, fd', handle.2, hpid, howner, ?_⟩
      have hnames : handle.1 = names := by
        split at hmoved
        · exact congrArg Prod.fst hmoved
        · exact congrArg Prod.fst hmoved
      rw [hold, ← hnames] }

theorem put (names : List Str) (data : Bytes) :
    Alike group { s with files := s.files.put names data }
      { t with files := t.files.put names data } :=
  { h with
    content := by
      intro other hother
      change ∃ node, Function.update s.files.tree names _ other = some node ∧
        Function.update t.files.tree names _ other = some node
      by_cases hsame : other = names
      · rw [hsame, Function.update_self, Function.update_self]
        exact ⟨_, rfl, rfl⟩
      · rw [Function.update_of_ne hsame, Function.update_of_ne hsame]
        exact h.content other hother }

variable (hpid : group pid)
include hpid

theorem enter (addr : Int) (frames : Nat) :
    Alike group (s.enter pid addr frames) (t.enter pid addr frames) :=
  { h with
    starts := by
      intro other hother
      change Function.update s.starts pid _ other = Function.update t.starts pid _ other
      rw [h.starts pid hpid]
      exact update_congr (h.starts other hother) _ _
    free := Nat.sub_le_sub_right h.free frames }

theorem handle_cases {fd : Int} (howner : s.owner fd = some pid) :
    (s.files.handles fd = none ∧ t.files.handles fd = none) ∨
      ∃ names position node, s.files.handles fd = some (names, position) ∧
        t.files.handles fd = some (names, position) ∧
        s.files.tree names = some node ∧ t.files.tree names = some node := by
  have hsame := h.handles pid hpid fd howner
  cases hhandle : s.files.handles fd with
  | none => exact Or.inl ⟨rfl, hsame.symm.trans hhandle⟩
  | some handle =>
      obtain ⟨node, hs, ht⟩ := h.content handle.1 ⟨pid, fd, handle.2, hpid, howner, hhandle⟩
      exact Or.inr ⟨handle.1, handle.2, node, rfl, hsame.symm.trans hhandle, hs, ht⟩

theorem read (fd size : Int) :
    (s.read pid fd size).1 = (t.read pid fd size).1 ∧
      Alike group (s.read pid fd size).2 (t.read pid fd size).2 := by
  unfold System.read
  rw [h.phase pid hpid]
  by_cases habsent : t.phase pid = .absent
  · rw [if_pos habsent, if_pos habsent]
    exact ⟨rfl, h⟩
  rw [if_neg habsent, if_neg habsent]
  by_cases howner : s.owner fd = some pid
  · rw [if_pos howner, if_pos ((h.owner pid hpid fd).mp howner)]
    unfold FileStore.read
    rcases h.handle_cases hpid howner with
      ⟨hs, ht⟩ | ⟨names, position, node, hs, ht, hnode, hnode'⟩
    · rw [hs, ht]
      exact ⟨rfl, h⟩
    · rw [hs, ht]
      dsimp only
      rw [hnode, hnode']
      split
      · exact ⟨rfl, h.advance fd _⟩
      · exact ⟨rfl, h⟩
  · rw [if_neg howner, if_neg (mt (h.owner pid hpid fd).mpr howner)]
    exact ⟨rfl, h⟩

theorem write (fd : Int) (data : Bytes) :
    (s.write pid fd data).1 = (t.write pid fd data).1 ∧
      Alike group (s.write pid fd data).2 (t.write pid fd data).2 := by
  unfold System.write
  rw [h.phase pid hpid]
  by_cases habsent : t.phase pid = .absent
  · rw [if_pos habsent, if_pos habsent]
    exact ⟨rfl, h⟩
  rw [if_neg habsent, if_neg habsent]
  by_cases hlog : fd = 1 ∨ fd = 2
  · rw [if_pos hlog, if_pos hlog]
    exact ⟨rfl, h⟩
  rw [if_neg hlog, if_neg hlog]
  by_cases howner : s.owner fd = some pid
  · rw [if_pos howner, if_pos ((h.owner pid hpid fd).mp howner)]
    unfold FileStore.write
    rcases h.handle_cases hpid howner with
      ⟨hs, ht⟩ | ⟨names, position, node, hs, ht, hnode, hnode'⟩
    · rw [hs, ht]
      exact ⟨rfl, h⟩
    · rw [hs, ht]
      dsimp only
      rw [hnode, hnode']
      split
      · exact ⟨rfl, (h.put names _).advance fd _⟩
      · exact ⟨rfl, h⟩
  · rw [if_neg howner, if_neg (mt (h.owner pid hpid fd).mpr howner)]
    exact ⟨rfl, h⟩

theorem close (fd : Int) :
    (s.close pid fd).1 = (t.close pid fd).1 ∧
      Alike group (s.close pid fd).2 (t.close pid fd).2 := by
  unfold System.close
  rw [h.phase pid hpid]
  by_cases habsent : t.phase pid = .absent
  · rw [if_pos habsent, if_pos habsent]
    exact ⟨rfl, h⟩
  rw [if_neg habsent, if_neg habsent]
  by_cases howner : s.owner fd = some pid
  · rw [if_pos howner, if_pos ((h.owner pid hpid fd).mp howner)]
    refine ⟨rfl, { h with owner := ?_, below := ?_, handles := ?_, content := ?_ }⟩
    · intro other hother fd'
      rw [owner_close_iff, owner_close_iff, h.owner other hother fd']
    · exact fun other hother fd' hfd' => h.below other hother fd' (owner_close_iff.mp hfd').2
    · intro other hother fd' hfd'
      obtain ⟨hne, hfd'⟩ := owner_close_iff.mp hfd'
      change Function.update s.files.handles fd none fd' =
        Function.update t.files.handles fd none fd'
      rw [Function.update_of_ne hne, Function.update_of_ne hne]
      exact h.handles other hother fd' hfd'
    · rintro names ⟨other, fd', position, hother, hfd', hhandle⟩
      obtain ⟨hne, hfd'⟩ := owner_close_iff.mp hfd'
      change Function.update s.files.handles fd none fd' = _ at hhandle
      rw [Function.update_of_ne hne] at hhandle
      exact h.content names ⟨other, fd', position, hother, hfd', hhandle⟩
  · rw [if_neg howner, if_neg (mt (h.owner pid hpid fd).mpr howner)]
    exact ⟨rfl, h⟩

theorem mmap {length : Int} (hfree : framesFor length ≤ s.free) (addr : Int) :
    (s.mmap pid addr length).1 = (t.mmap pid addr length).1 ∧
      Alike group (s.mmap pid addr length).2 (t.mmap pid addr length).2 := by
  unfold System.mmap
  rw [h.phase pid hpid]
  by_cases hfail : length ≤ 0 ∨ t.phase pid = .absent
  · rw [if_pos hfail, if_pos hfail]
    exact ⟨rfl, h⟩
  · rw [if_neg hfail, if_neg hfail, if_pos hfree, if_pos (hfree.trans h.free)]
    exact ⟨rfl, h.enter hpid _ _⟩

theorem munmap (addr : Int) :
    (s.munmap pid addr).1 = (t.munmap pid addr).1 ∧
      Alike group (s.munmap pid addr).2 (t.munmap pid addr).2 := by
  unfold System.munmap Starts
  rw [h.starts pid hpid]
  split
  · refine ⟨rfl, { h with starts := ?_ }⟩
    intro other hother
    exact update_congr (h.starts other hother) _ _
  · exact ⟨rfl, h⟩

theorem setBrk {newBrk : Int} (hfree : framesFor (newBrk - s.brk pid) ≤ s.free) :
    (s.setBrk pid newBrk).1 = (t.setBrk pid newBrk).1 ∧
      Alike group (s.setBrk pid newBrk).2 (t.setBrk pid newBrk).2 := by
  unfold System.setBrk
  rw [h.brk pid hpid] at hfree ⊢
  dsimp only
  by_cases hbelow : newBrk ≤ t.brk pid
  · rw [if_pos hbelow, if_pos hbelow]
    exact ⟨rfl, h⟩
  rw [if_neg hbelow, if_neg hbelow]
  have hbrk : ∀ other, group other →
      Function.update s.brk pid newBrk other = Function.update t.brk pid newBrk other :=
    fun other hother => update_congr (h.brk other hother) _ _
  rw [h.starts pid hpid]
  by_cases hspace : (t.starts pid).isSome
  · rw [if_pos ⟨hspace, hfree⟩, if_pos ⟨hspace, hfree.trans h.free⟩]
    exact ⟨rfl, { h.enter hpid _ _ with brk := hbrk }⟩
  · rw [if_neg fun hboth => hspace hboth.1, if_neg fun hboth => hspace hboth.1]
    exact ⟨rfl, { h with brk := hbrk }⟩

theorem exit : (s.exit pid).1 = (t.exit pid).1 ∧ Alike group (s.exit pid).2 (t.exit pid).2 := by
  unfold System.exit
  rw [h.phase pid hpid]
  split
  · exact ⟨rfl, h⟩
  · refine ⟨rfl, { h with phase := ?_ }⟩
    intro other hother
    exact update_congr (h.phase other hother) _ _
  · exact ⟨rfl, h⟩

theorem zombieChild : s.zombieChild pid = t.zombieChild pid := by
  unfold System.zombieChild
  rw [← h.children pid hpid]
  refine List.find?_congr fun child hchild => ?_
  rw [h.phase child (h.closed pid hpid child hchild)]

theorem reap (child : Int) : Alike group (s.reap pid child) (t.reap pid child) := by
  refine { h with
           phase := ?_, children := ?_, closed := ?_, owner := ?_, below := ?_, handles := ?_,
           content := ?_ }
  · intro other hother
    exact update_congr (h.phase other hother) _ _
  · intro other hother
    change Function.update (Function.update s.children pid _) child [] other =
      Function.update (Function.update t.children pid _) child [] other
    rw [h.children pid hpid]
    exact update_congr (update_congr (h.children other hother) _ _) _ _
  · intro other hother c hc
    change c ∈ Function.update (Function.update s.children pid _) child [] other at hc
    by_cases hsame : other = child
    · rw [hsame, Function.update_self] at hc
      cases hc
    rw [Function.update_of_ne hsame] at hc
    by_cases hparent : other = pid
    · rw [hparent, Function.update_self] at hc
      exact h.closed pid hpid c (List.mem_of_mem_erase hc)
    · rw [Function.update_of_ne hparent] at hc
      exact h.closed other hother c hc
  · intro other hother fd
    rw [owner_reap_iff, owner_reap_iff, h.owner other hother fd]
  · exact fun other hother fd hfd => h.below other hother fd (owner_reap_iff.mp hfd).2
  · exact fun other hother fd hfd => h.handles other hother fd (owner_reap_iff.mp hfd).2
  · rintro names ⟨other, fd, position, hother, hfd, hhandle⟩
    exact h.content names ⟨other, fd, position, hother, (owner_reap_iff.mp hfd).2, hhandle⟩

theorem wait4 :
    (s.wait4 pid).1 = (t.wait4 pid).1 ∧ Alike group (s.wait4 pid).2 (t.wait4 pid).2 := by
  unfold System.wait4
  rw [h.phase pid hpid, h.zombieChild hpid]
  by_cases habsent : t.phase pid = .absent
  · rw [if_pos habsent, if_pos habsent]
    exact ⟨rfl, h⟩
  rw [if_neg habsent, if_neg habsent]
  cases t.zombieChild pid with
  | none => exact ⟨rfl, h⟩
  | some child => exact ⟨rfl, h.reap hpid child⟩

theorem serve {call : Syscall} (hprivate : s.Private group pid call) :
    (s.serve ⟨pid, call⟩).1 = (t.serve ⟨pid, call⟩).1 ∧
      Alike group (s.serve ⟨pid, call⟩).2 (t.serve ⟨pid, call⟩).2 := by
  cases call with
  | read fd size => exact h.read hpid fd size
  | write fd data => exact h.write hpid fd data
  | openat dirfd path flags => exact hprivate.elim
  | close fd => exact h.close hpid fd
  | mmap addr length flags name => exact h.mmap hpid hprivate addr
  | munmap addr length => exact h.munmap hpid addr
  | brk newBrk => exact h.setBrk hpid hprivate
  | fork => exact hprivate.elim
  | execve path argv envp =>
      refine ⟨?_, h⟩
      change s.execve pid = t.execve pid
      rw [System.execve, System.execve, h.phase pid hpid]
  | exit code => exact h.exit hpid
  | wait4 childPid options => exact h.wait4 hpid
  | kill targetPid signum =>
      refine ⟨?_, h⟩
      change s.kill targetPid signum = t.kill targetPid signum
      rw [System.kill, System.kill, h.phase targetPid hprivate]
  | _ => exact ⟨rfl, h⟩

end Alike

theorem separate_group (group : Int → Bool) :
    Separate (fun req : Request => group req.pid) true respond (Spares group) (Alike group) where
  reply := by
    rintro s t ⟨pid, call⟩ hspares hpid h
    exact congrArg Except.ok (h.serve hpid ((if_pos hpid).mp hspares)).1
  own := by
    rintro s t ⟨pid, call⟩ hspares hpid h
    exact (h.serve hpid ((if_pos hpid).mp hspares)).2
  others := by
    rintro s t ⟨pid, call⟩ hspares hpid h
    exact h.unnoticed (unnoticed_serve (Bool.eq_false_of_not_eq_true hpid) h
      ((if_neg hpid).mp hspares))

end System

end ComputeKernel.Kernel
