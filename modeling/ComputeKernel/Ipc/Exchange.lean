import ComputeKernel.Ipc.Manager
import ComputeKernel.Lib.Service
import ComputeKernel.Lib.Tape

/-!
# The IPC manager is an exchange

What the manager is for, without pipe objects and the dict that shares them between two ends:
numbered channels, each with a tape of all the bytes it accepted, and a box of signals for
each process.  The numbers of the two ends are computed from that of the channel.
-/

namespace ComputeKernel.Ipc

open Lib

inductive IpcRequest
  | createPipe
  | onPipe (fd : Int) (op : Op)
  | available (fd : Int)
  | createSignalTable (pid : Int)
  | hasPendingSignals (pid : Int)
  | onTable (pid : Int) (call : SignalTable.Call)

inductive IpcReply
  | ends (readFd writeFd : Int)
  | count (value : Int)
  | data (value : Bytes)
  | flag (value : Bool)
  | signal (value : Option Signal)
  | done
  /-- There is no pipe or no signal table of that number. -/
  | absent
  deriving DecidableEq

/-! ## The manager -/

namespace Pipe

def perform (pipe : Pipe) : Op → IpcReply × Pipe
  | .write data =>
      let (n, pipe) := pipe.write data
      (.count n, pipe)
  | .read size =>
      let (data, pipe) := pipe.read size
      (.data data, pipe)
  | .closeWrite => (.done, pipe.closeWrite)
  | .closeRead => (.done, pipe.closeRead)

end Pipe

namespace IpcManager

def onPipe (m : IpcManager) (fd : Int) (op : Op) : IpcReply × IpcManager :=
  match m.pipes.get? fd with
  | none => (.absent, m)
  | some i =>
      match m.objects[i]? with
      | none => (.absent, m)
      | some pipe =>
          let (reply, pipe) := pipe.perform op
          (reply, { m with objects := m.objects.set i pipe })

/-- Sending and receiving go through the manager, the mask is changed on the table itself. -/
def onTable (m : IpcManager) (pid : Int) : SignalTable.Call → IpcReply × IpcManager
  | .send sig =>
      let (sent, m) := m.sendSignal pid sig
      (.flag sent, m)
  | .nextSignal =>
      let (sig, m) := m.nextSignal pid
      (.signal sig, m)
  | .block sig =>
      (if pid ∈ m.signalTables then .done else .absent, m.performSignal (pid, .block sig))
  | .unblock sig =>
      (if pid ∈ m.signalTables then .done else .absent, m.performSignal (pid, .unblock sig))

def respond (m : IpcManager) : IpcRequest → IpcReply × IpcManager
  | .createPipe =>
      let (pipe, m) := m.createPipe
      (.ends pipe.readFd pipe.writeFd, m)
  | .onPipe fd op => m.onPipe fd op
  | .available fd =>
      (match m.getPipe fd with
        | none => .absent
        | some pipe => .count pipe.buffer.items.length, m)
  | .createSignalTable pid => (.done, (m.createSignalTable pid).2)
  | .hasPendingSignals pid => (.flag (m.hasPendingSignals pid), m)
  | .onTable pid call => m.onTable pid call

end IpcManager

/-! ## The exchange -/

/-- All bytes accepted so far, and whether one of the ends was closed. -/
structure Channel where
  tape : Tape UInt8
  shut : Bool

namespace Channel

def new : Channel :=
  ⟨Tape.empty, false⟩

def perform (c : Channel) : Op → IpcReply × Channel
  | .write data =>
      if c.shut then (.count (-32), c)
      else (.count data.length, { c with tape := c.tape.record pipeBufferSize data })
  | .read size =>
      let (data, tape) := c.tape.take size.toNat
      (.data data, { c with tape := tape })
  | .closeWrite => (.done, { c with shut := true })
  | .closeRead => (.done, { c with shut := true })

end Channel

/-- The signals waiting for a process, oldest first, and those it has blocked. -/
structure Mailbox where
  waiting : List Signal
  masked : Finset Signal

namespace Mailbox

def new : Mailbox :=
  ⟨[], ∅⟩

def perform (box : Mailbox) : SignalTable.Call → IpcReply × Mailbox
  | .send sig =>
      if sig ∈ box.masked ∧ sig ≠ .sigkill ∧ sig ≠ .sigstop then (.flag true, box)
      else (.flag true, { box with waiting := box.waiting ++ [sig] })
  | .nextSignal => (.signal box.waiting.head?, { box with waiting := box.waiting.tail })
  | .block sig => (.done, { box with masked := insert sig box.masked })
  | .unblock sig => (.done, { box with masked := box.masked.erase sig })

def missing : SignalTable.Call → IpcReply
  | .send _ => .flag false
  | .nextSignal => .signal none
  | .block _ => .absent
  | .unblock _ => .absent

end Mailbox

structure Exchange where
  count : Nat
  channel : Nat → Channel
  box : Int → Option Mailbox

namespace Exchange

def init : Exchange :=
  ⟨0, fun _ => Channel.new, fun _ => none⟩

def channelOf (s : Exchange) (fd : Int) : Option Nat :=
  if 100 ≤ fd ∧ fd < 100 + 2 * s.count then some ((fd - 100) / 2).toNat else none

def onPipe (s : Exchange) (fd : Int) (op : Op) : IpcReply × Exchange :=
  match s.channelOf fd with
  | none => (.absent, s)
  | some i =>
      let (reply, c) := (s.channel i).perform op
      (reply, { s with channel := Function.update s.channel i c })

def onTable (s : Exchange) (pid : Int) (call : SignalTable.Call) : IpcReply × Exchange :=
  match s.box pid with
  | none => (Mailbox.missing call, s)
  | some box =>
      let (reply, box) := box.perform call
      (reply, { s with box := Function.update s.box pid (some box) })

def serve (s : Exchange) : IpcRequest → IpcReply × Exchange
  | .createPipe =>
      (.ends (100 + 2 * s.count) (101 + 2 * s.count), { s with count := s.count + 1 })
  | .onPipe fd op => s.onPipe fd op
  | .available fd =>
      (match s.channelOf fd with
        | none => .absent
        | some i => .count (s.channel i).tape.pending.length, s)
  | .createSignalTable pid =>
      (.done, { s with box := Function.update s.box pid (some Mailbox.new) })
  | .hasPendingSignals pid =>
      (.flag (match s.box pid with
        | none => false
        | some box => !box.waiting.isEmpty), s)
  | .onTable pid call => s.onTable pid call

end Exchange

/-! ## The manager runs an exchange -/

structure Channel.Carries (c : Channel) (pipe : Pipe) : Prop where
  shows : c.tape.Shows pipe.buffer
  shut : c.shut = true ↔ ¬ pipe.Open

structure Mailbox.Holds (box : Mailbox) (table : SignalTable) : Prop where
  waiting : box.waiting = table.pending
  masked : box.masked = table.blocked

structure Exchange.Runs (m : IpcManager) (s : Exchange) : Prop where
  count : m.objects.length = s.count
  next : m.nextPipeFd = 100 + 2 * s.count
  channelOf : ∀ fd, m.pipes.get? fd = s.channelOf fd
  carries : ∀ i pipe, m.objects[i]? = some pipe → (s.channel i).Carries pipe
  fresh : ∀ i, s.count ≤ i → s.channel i = Channel.new
  boxes : ∀ pid, Option.Rel (fun table box => Mailbox.Holds box table)
    (m.signalTables.get? pid) (s.box pid)

theorem Pipe.read_eq (pipe : Pipe) (size : Int) :
    (pipe.read size).1 = pipe.buffer.items.take size.toNat ∧
      (pipe.read size).2.buffer.items = pipe.buffer.items.drop size.toNat := by
  obtain ⟨htaken, hleft⟩ := BoundedDeque.popMany_eq
    (min size pipe.buffer.items.length).toNat pipe.buffer
  unfold Pipe.read
  rw [htaken, hleft]
  by_cases hsize : size ≤ pipe.buffer.items.length
  · rw [min_eq_left hsize]
    exact ⟨rfl, rfl⟩
  · -- all is taken in both
    have hmin : min size pipe.buffer.items.length = pipe.buffer.items.length := by omega
    have hlength : pipe.buffer.items.length ≤ size.toNat := by omega
    rw [hmin, Int.toNat_natCast, List.take_length, List.drop_length,
      List.take_of_length_le hlength, List.drop_of_length_le hlength]
    exact ⟨rfl, rfl⟩

theorem Channel.Carries.perform {c : Channel} {pipe : Pipe} (h : c.Carries pipe) (op : Op) :
    (pipe.perform op).1 = (c.perform op).1 ∧ (c.perform op).2.Carries (pipe.perform op).2 := by
  cases op with
  | write data =>
      unfold Pipe.perform Channel.perform
      dsimp only
      by_cases hopen : pipe.Open
      · have hshut : ¬ c.shut = true := fun hshut => h.shut.mp hshut hopen
        rw [Pipe.write_of_open hopen, if_neg hshut]
        exact ⟨rfl, h.shows.record data, h.shut⟩
      · rw [Pipe.write_of_not_open hopen, if_pos (h.shut.mpr hopen)]
        exact ⟨rfl, h⟩
  | read size =>
      obtain ⟨htaken, hleft⟩ := pipe.read_eq size
      have hshows : pipe.buffer.items = c.tape.pending := h.shows
      refine ⟨?_, ?_, h.shut⟩
      · change IpcReply.data (pipe.read size).1 = .data (c.tape.pending.take size.toNat)
        rw [htaken, hshows]
      · change (pipe.read size).2.buffer.items = (c.tape.take size.toNat).2.pending
        rw [hleft, hshows, Tape.pending_take]
  | closeWrite => exact ⟨rfl, h.shows, iff_of_true rfl fun hopen => hopen (Or.inl rfl)⟩
  | closeRead => exact ⟨rfl, h.shows, iff_of_true rfl fun hopen => hopen (Or.inr rfl)⟩

theorem Channel.carries_new (readFd writeFd : Int) :
    Channel.new.Carries { readFd := readFd, writeFd := writeFd } where
  shows := Tape.shows_empty
  shut := by simp [Channel.new, Pipe.Open]

theorem Mailbox.Holds.perform {box : Mailbox} {table : SignalTable} (h : box.Holds table)
    (call : SignalTable.Call) : (box.perform call).2.Holds (table.perform call) := by
  cases call with
  | send sig =>
      have hpasses : (sig ∈ box.masked ∧ sig ≠ .sigkill ∧ sig ≠ .sigstop) ↔
          ¬ table.Passes sig := by
        rw [h.masked, SignalTable.Passes, not_or, not_or, not_not]
      unfold Mailbox.perform SignalTable.perform
      dsimp only
      by_cases hblocked : table.Passes sig
      · rw [if_neg (fun hmasked => hpasses.mp hmasked hblocked),
          SignalTable.send_of_passes hblocked]
        exact ⟨congrArg (· ++ [sig]) h.waiting, h.masked⟩
      · rw [if_pos (hpasses.mpr hblocked), SignalTable.send_of_not_passes hblocked]
        exact h
  | nextSignal =>
      unfold Mailbox.perform SignalTable.perform
      dsimp only
      rw [SignalTable.nextSignal_snd]
      exact ⟨congrArg List.tail h.waiting, h.masked⟩
  | block sig => exact ⟨h.waiting, congrArg (insert sig) h.masked⟩
  | unblock sig => exact ⟨h.waiting, congrArg (Finset.erase · sig) h.masked⟩

namespace IpcManager

theorem onTable_of_none {m : IpcManager} {pid : Int} (h : m.signalTables.get? pid = none)
    (call : SignalTable.Call) : m.onTable pid call = (Mailbox.missing call, m) := by
  have hmem : pid ∉ m.signalTables := Dict.get?_eq_none.mp h
  cases call with
  | send sig =>
      unfold onTable sendSignal
      rw [h]
      rfl
  | nextSignal =>
      unfold onTable nextSignal
      rw [h]
      rfl
  | block sig =>
      unfold onTable performSignal
      dsimp only
      rw [if_neg hmem, Dict.modify_of_not_mem h]
      rfl
  | unblock sig =>
      unfold onTable performSignal
      dsimp only
      rw [if_neg hmem, Dict.modify_of_not_mem h]
      rfl

theorem onTable_of_some {m : IpcManager} {pid : Int} {table : SignalTable} {box : Mailbox}
    (h : m.signalTables.get? pid = some table) (hbox : box.Holds table)
    (call : SignalTable.Call) :
    m.onTable pid call = ((box.perform call).1,
      { m with signalTables := m.signalTables.set pid (table.perform call) }) := by
  have hmem : pid ∈ m.signalTables := Dict.mem_of_get? h
  cases call with
  | send sig =>
      have hreply : (box.perform (.send sig)).1 = .flag true := by
        unfold Mailbox.perform
        dsimp only
        split <;> rfl
      unfold onTable sendSignal
      rw [h, hreply]
      rfl
  | nextSignal =>
      have hreply : (box.perform .nextSignal).1 = .signal table.nextSignal.1 := by
        rw [SignalTable.nextSignal_fst, ← hbox.waiting]
        rfl
      unfold onTable nextSignal
      rw [h, hreply]
      rfl
  | block sig =>
      unfold onTable performSignal
      dsimp only
      rw [if_pos hmem, Dict.modify_of_get? _ h]
      rfl
  | unblock sig =>
      unfold onTable performSignal
      dsimp only
      rw [if_pos hmem, Dict.modify_of_get? _ h]
      rfl

end IpcManager

namespace Exchange.Runs

variable {m : IpcManager} {s : Exchange}

theorem channelOf_lt {fd : Int} {i : Nat} (h : s.channelOf fd = some i) : i < s.count := by
  unfold Exchange.channelOf at h
  split at h
  · cases h
    omega
  · cases h

theorem createPipe (h : Runs m s) : Runs (m.respond .createPipe).2 (s.serve .createPipe).2 where
  count := by
    have hlength : (m.objects ++ [m.createPipe.1]).length = s.count + 1 := by
      rw [List.length_append, h.count]
      rfl
    exact hlength
  next := by
    have hnext : (m.respond .createPipe).2.nextPipeFd = m.nextPipeFd + 2 := rfl
    have hcount : (s.serve .createPipe).2.count = s.count + 1 := rfl
    rw [hnext, hcount, h.next]
    omega
  channelOf := by
    intro fd
    change ((m.pipes.set m.nextPipeFd m.objects.length).set (m.nextPipeFd + 1)
      m.objects.length).get? fd = _
    rw [Dict.get?_set, Dict.get?_set, h.channelOf, h.count, h.next]
    unfold Exchange.channelOf
    have hcount : (s.serve .createPipe).2.count = s.count + 1 := rfl
    rw [hcount]
    by_cases hwrite : fd = 100 + 2 * s.count + 1
    · rw [if_pos hwrite, if_pos (by omega)]
      exact congrArg some (by omega)
    · rw [if_neg hwrite]
      by_cases hread : fd = 100 + 2 * s.count
      · rw [if_pos hread, if_pos (by omega)]
        exact congrArg some (by omega)
      · rw [if_neg hread]
        by_cases hold : 100 ≤ fd ∧ fd < 100 + 2 * s.count
        · rw [if_pos hold, if_pos (by omega)]
        · rw [if_neg hold, if_neg (by omega)]
  carries := by
    intro i pipe hpipe
    have hpipe : (m.objects ++ [m.createPipe.1])[i]? = some pipe := hpipe
    change (s.channel i).Carries pipe
    by_cases hold : i < m.objects.length
    · rw [List.getElem?_append_left hold] at hpipe
      exact h.carries i pipe hpipe
    · rw [List.getElem?_append_right (Nat.le_of_not_lt hold)] at hpipe
      rw [h.fresh i (by rw [← h.count]; omega)]
      obtain rfl := List.mem_singleton.mp (List.mem_of_getElem? hpipe)
      exact Channel.carries_new _ _
  fresh i hi := h.fresh i (Nat.le_of_succ_le hi)
  boxes := h.boxes

theorem onPipe (h : Runs m s) (fd : Int) (op : Op) :
    (m.onPipe fd op).1 = (s.onPipe fd op).1 ∧ Runs (m.onPipe fd op).2 (s.onPipe fd op).2 := by
  unfold IpcManager.onPipe Exchange.onPipe
  rw [h.channelOf fd]
  cases hfd : s.channelOf fd with
  | none => exact ⟨rfl, h⟩
  | some i =>
      have hi : i < s.count := channelOf_lt hfd
      obtain ⟨pipe, hpipe⟩ : ∃ pipe, m.objects[i]? = some pipe := by
        rw [← h.count] at hi
        exact ⟨_, List.getElem?_eq_getElem hi⟩
      obtain ⟨hreply, hcarries⟩ := (h.carries i pipe hpipe).perform op
      dsimp only
      rw [hpipe]
      refine ⟨hreply, ?_, h.next, h.channelOf, ?_, ?_, h.boxes⟩
      · exact List.length_set.trans h.count
      · intro j other hother
        dsimp only at hother ⊢
        by_cases hsame : j = i
        · subst hsame
          rw [List.getElem?_set_self (by rw [h.count]; exact hi)] at hother
          cases hother
          rw [Function.update_self]
          exact hcarries
        · rw [List.getElem?_set_ne (Ne.symm hsame)] at hother
          rw [Function.update_of_ne hsame]
          exact h.carries j other hother
      · intro j hj
        have hne : j ≠ i := fun hsame => absurd hi (by rw [← hsame]; exact Nat.not_lt.mpr hj)
        dsimp only
        rw [Function.update_of_ne hne]
        exact h.fresh j hj

theorem setBox (h : Runs m s) (pid : Int) {table : SignalTable} {box : Mailbox}
    (hbox : box.Holds table) :
    Runs { m with signalTables := m.signalTables.set pid table }
      { s with box := Function.update s.box pid (some box) } where
  count := h.count
  next := h.next
  channelOf := h.channelOf
  carries := h.carries
  fresh := h.fresh
  boxes := by
    intro other
    dsimp only
    rw [Dict.get?_set]
    by_cases hsame : other = pid
    · rw [if_pos hsame, hsame, Function.update_self]
      exact Option.Rel.some hbox
    · rw [if_neg hsame, Function.update_of_ne hsame]
      exact h.boxes other

theorem box_cases (h : Runs m s) (pid : Int) :
    (m.signalTables.get? pid = none ∧ s.box pid = none) ∨
      ∃ table box, m.signalTables.get? pid = some table ∧ s.box pid = some box ∧
        box.Holds table := by
  have hpid := h.boxes pid
  revert hpid
  generalize m.signalTables.get? pid = table
  generalize s.box pid = box
  intro hpid
  cases hpid with
  | none => exact Or.inl ⟨rfl, rfl⟩
  | some hbox => exact Or.inr ⟨_, _, rfl, rfl, hbox⟩

theorem onTable (h : Runs m s) (pid : Int) (call : SignalTable.Call) :
    (m.onTable pid call).1 = (s.onTable pid call).1 ∧
      Runs (m.onTable pid call).2 (s.onTable pid call).2 := by
  unfold Exchange.onTable
  rcases h.box_cases pid with ⟨htable, hbox⟩ | ⟨table, box, htable, hbox, hholds⟩
  · rw [IpcManager.onTable_of_none htable, hbox]
    exact ⟨rfl, h⟩
  · rw [IpcManager.onTable_of_some htable hholds, hbox]
    exact ⟨rfl, h.setBox pid (hholds.perform call)⟩

theorem respond (h : Runs m s) (request : IpcRequest) :
    (m.respond request).1 = (s.serve request).1 ∧
      Runs (m.respond request).2 (s.serve request).2 := by
  cases request with
  | createPipe =>
      refine ⟨?_, h.createPipe⟩
      change IpcReply.ends m.nextPipeFd (m.nextPipeFd + 1) = .ends _ _
      rw [h.next]
      congr 1
      omega
  | onPipe fd op => exact h.onPipe fd op
  | available fd =>
      refine ⟨?_, h⟩
      unfold IpcManager.respond Exchange.serve IpcManager.getPipe
      dsimp only
      rw [h.channelOf fd]
      cases hfd : s.channelOf fd with
      | none => rfl
      | some i =>
          have hi : i < m.objects.length := by
            rw [h.count]
            exact channelOf_lt hfd
          have hshows : (m.objects[i]).buffer.items = (s.channel i).tape.pending :=
            (h.carries i _ (List.getElem?_eq_getElem hi)).shows
          rw [Option.bind_some, List.getElem?_eq_getElem hi]
          dsimp only
          rw [hshows]
  | createSignalTable pid => exact ⟨rfl, h.setBox pid ⟨rfl, rfl⟩⟩
  | hasPendingSignals pid =>
      refine ⟨?_, h⟩
      unfold IpcManager.respond Exchange.serve IpcManager.hasPendingSignals
      dsimp only
      rcases h.box_cases pid with ⟨htable, hbox⟩ | ⟨table, box, htable, hbox, hholds⟩
      · rw [htable, hbox]
      · rw [htable, hbox]
        dsimp only
        rw [hholds.waiting]
        rfl
  | onTable pid call => exact h.onTable pid call

end Exchange.Runs

theorem runs_init : Exchange.Runs IpcManager.init Exchange.init where
  count := rfl
  next := rfl
  channelOf := by
    intro fd
    unfold Exchange.channelOf
    have hempty : Exchange.init.count = 0 := rfl
    rw [hempty, if_neg (by omega)]
    rfl
  carries i pipe hpipe := by
    cases hpipe
  fresh _ _ := rfl
  boxes _ := Option.Rel.none

theorem refines_exchange :
    Service.Refines Exchange.Runs IpcManager.respond Exchange.serve where
  reply h request := (h.respond request).1
  next h request := (h.respond request).2

/-- The manager gives the replies of the exchange, whatever is requested in whatever order. -/
theorem replies_eq_exchange (requests : List IpcRequest) :
    Service.replies IpcManager.respond IpcManager.init requests =
      Service.replies Exchange.serve Exchange.init requests :=
  refines_exchange.replies_eq runs_init requests

end ComputeKernel.Ipc
