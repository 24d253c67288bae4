import ComputeKernel.Ipc.Exchange

/-!
# Pipes and processes keep apart

Of the bytes that a pipe accepted its readers get some, in order and each once, although
some may be lost.  Whoever uses one pipe, or receives the signals of one process, does not
notice what happens on the others.
-/

namespace ComputeKernel.Ipc

open Lib Lib.Service

/-! ## The bytes of one pipe -/

def EndOf (i : Nat) (fd : Int) : Prop :=
  fd = 100 + 2 * i ∨ fd = 101 + 2 * i

instance (i : Nat) (fd : Int) : Decidable (EndOf i fd) :=
  inferInstanceAs (Decidable (_ ∨ _))

def accepted (i : Nat) : IpcRequest × IpcReply → Bytes
  | (.onPipe fd (.write data), .count n) => if EndOf i fd then data.take n.toNat else []
  | _ => []

def delivered (i : Nat) : IpcRequest × IpcReply → Bytes
  | (.onPipe fd (.read _), .data data) => if EndOf i fd then data else []
  | _ => []

theorem accepted_of_not_end {i : Nat} {fd : Int} (h : ¬ EndOf i fd) (op : Op)
    (reply : IpcReply) : accepted i (.onPipe fd op, reply) = [] := by
  cases op <;> cases reply <;> first | rfl | exact if_neg h

theorem delivered_of_not_end {i : Nat} {fd : Int} (h : ¬ EndOf i fd) (op : Op)
    (reply : IpcReply) : delivered i (.onPipe fd op, reply) = [] := by
  cases op <;> cases reply <;> first | rfl | exact if_neg h

namespace Exchange

theorem endOf_iff {s : Exchange} {fd : Int} {i j : Nat} (h : s.channelOf fd = some j) :
    EndOf i fd ↔ i = j := by
  unfold channelOf at h
  unfold EndOf
  split at h
  · cases h
    omega
  · cases h

/-- What one request moves: the tape grows by what is accepted, and what is delivered comes
from its front. -/
structure Moves (s : Exchange) (i : Nat) (request : IpcRequest) : Prop where
  recorded : ((s.serve request).2.channel i).tape.recorded =
    (s.channel i).tape.recorded ++ accepted i (request, (s.serve request).1)
  pending : (delivered i (request, (s.serve request).1) ++
      ((s.serve request).2.channel i).tape.pending).Sublist
    ((s.channel i).tape.pending ++ accepted i (request, (s.serve request).1))

theorem moves_of_same {s : Exchange} {i : Nat} {request : IpcRequest}
    (haccepted : accepted i (request, (s.serve request).1) = [])
    (hdelivered : delivered i (request, (s.serve request).1) = [])
    (hchannel : (s.serve request).2.channel i = s.channel i) : Moves s i request where
  recorded := by rw [haccepted, hchannel, List.append_nil]
  pending := by
    rw [haccepted, hdelivered, hchannel, List.append_nil, List.nil_append]

theorem moves_of_other {s : Exchange} {i : Nat} {fd : Int} (op : Op)
    (h : s.channelOf fd ≠ some i) : Moves s i (.onPipe fd op) := by
  have hserve : s.serve (.onPipe fd op) = s.onPipe fd op := rfl
  cases hfd : s.channelOf fd with
  | none =>
      have hreply : s.serve (.onPipe fd op) = (.absent, s) := by
        rw [hserve, onPipe, hfd]
      apply moves_of_same
      · rw [hreply]
        cases op <;> rfl
      · rw [hreply]
        cases op <;> rfl
      · rw [hreply]
  | some j =>
      have hne : i ≠ j := by
        rintro rfl
        exact h hfd
      have hend : ¬ EndOf i fd := fun hend => hne ((endOf_iff hfd).mp hend)
      apply moves_of_same (accepted_of_not_end hend op _) (delivered_of_not_end hend op _)
      rw [hserve, onPipe, hfd]
      exact Function.update_of_ne hne _ _

theorem moves_on_pipe {s : Exchange} {i : Nat} {fd : Int} (op : Op)
    (h : s.channelOf fd = some i) : Moves s i (.onPipe fd op) := by
  have hend : EndOf i fd := (endOf_iff h).mpr rfl
  have hreply : (s.serve (.onPipe fd op)).1 = ((s.channel i).perform op).1 := by
    change (s.onPipe fd op).1 = _
    rw [onPipe, h]
  have hchannel : (s.serve (.onPipe fd op)).2.channel i = ((s.channel i).perform op).2 := by
    change (s.onPipe fd op).2.channel i = _
    rw [onPipe, h]
    exact Function.update_self ..
  cases op with
  | write data =>
      by_cases hshut : (s.channel i).shut = true
      · have hperform : (s.channel i).perform (.write data) = (.count (-32), s.channel i) :=
          if_pos hshut
        rw [hperform] at hreply hchannel
        apply moves_of_same
        · rw [hreply]
          exact (if_pos hend).trans List.take_zero
        · rw [hreply]
          rfl
        · exact hchannel
      · have hperform : (s.channel i).perform (.write data) = (.count data.length,
            { s.channel i with tape := (s.channel i).tape.record pipeBufferSize data }) :=
          if_neg hshut
        rw [hperform] at hreply hchannel
        have haccepted : accepted i (.onPipe fd (.write data),
            (s.serve (.onPipe fd (.write data))).1) = data := by
          rw [hreply]
          exact (if_pos hend).trans (List.take_length ..)
        have hdelivered : delivered i (.onPipe fd (.write data),
            (s.serve (.onPipe fd (.write data))).1) = [] := by
          rw [hreply]
          rfl
        constructor
        · rw [haccepted, hchannel]
          rfl
        · rw [haccepted, hdelivered, hchannel, List.nil_append]
          exact Tape.pending_record_sublist _ _ _
  | read size =>
      have hdelivered : delivered i (.onPipe fd (.read size),
          (s.serve (.onPipe fd (.read size))).1) =
            (s.channel i).tape.pending.take size.toNat := by
        rw [hreply]
        exact if_pos hend
      have haccepted : accepted i (.onPipe fd (.read size),
          (s.serve (.onPipe fd (.read size))).1) = [] := by
        rw [hreply]
        rfl
      constructor
      · rw [haccepted, hchannel, List.append_nil]
        rfl
      · rw [haccepted, hdelivered, hchannel, List.append_nil]
        have hleft : ((s.channel i).perform (.read size)).2.tape.pending =
            (s.channel i).tape.pending.drop size.toNat := Tape.pending_take _ _
        rw [hleft, List.take_append_drop]
  | closeWrite =>
      constructor
      · rw [hreply, hchannel]
        exact (List.append_nil _).symm
      · rw [hreply, hchannel]
        exact (List.append_nil _).symm ▸ List.Sublist.refl _
  | closeRead =>
      constructor
      · rw [hreply, hchannel]
        exact (List.append_nil _).symm
      · rw [hreply, hchannel]
        exact (List.append_nil _).symm ▸ List.Sublist.refl _

theorem moves (s : Exchange) (i : Nat) (request : IpcRequest) : Moves s i request := by
  cases request with
  | onPipe fd op =>
      by_cases h : s.channelOf fd = some i
      · exact moves_on_pipe op h
      · exact moves_of_other op h
  | createPipe => exact moves_of_same rfl rfl rfl
  | available fd => exact moves_of_same rfl rfl rfl
  | createSignalTable pid => exact moves_of_same rfl rfl rfl
  | hasPendingSignals pid => exact moves_of_same rfl rfl rfl
  | onTable pid call =>
      apply moves_of_same rfl rfl
      change (s.onTable pid call).2.channel i = _
      unfold onTable
      split <;> rfl

theorem stream_of_run {s : Exchange} (i : Nat) (read recorded : Bytes)
    (hrecorded : (s.channel i).tape.recorded = recorded)
    (hread : (read ++ (s.channel i).tape.pending).Sublist recorded)
    (requests : List IpcRequest) :
    let t := after serve s requests
    let log := transcript serve s requests
    (t.channel i).tape.recorded = recorded ++ log.flatMap (accepted i) ∧
      ((read ++ log.flatMap (delivered i)) ++ (t.channel i).tape.pending).Sublist
        (recorded ++ log.flatMap (accepted i)) := by
  induction requests generalizing s read recorded with
  | nil =>
      intro t log
      simp only [log, transcript, List.flatMap_nil, List.append_nil]
      exact ⟨hrecorded, hread⟩
  | cons request requests ih =>
      intro t log
      have hmoves := s.moves i request
      have hnext : ((s.serve request).2.channel i).tape.recorded =
          recorded ++ accepted i (request, (s.serve request).1) := by
        rw [hmoves.recorded, hrecorded]
      have hmoved : ((read ++ delivered i (request, (s.serve request).1)) ++
          ((s.serve request).2.channel i).tape.pending).Sublist
            (recorded ++ accepted i (request, (s.serve request).1)) := by
        rw [List.append_assoc]
        have hpending := hmoves.pending.append_left read
        rw [← List.append_assoc read (s.channel i).tape.pending] at hpending
        exact hpending.trans (hread.append_right _)
      obtain ⟨hall, hsublist⟩ := ih _ _ hnext hmoved
      simp only [List.append_assoc] at hall hsublist
      simp only [log, transcript, List.flatMap_cons, List.append_assoc]
      exact ⟨hall, hsublist⟩

end Exchange

/-- In every run the bytes read from a pipe and then those in its buffer are, in order, among
those that it accepted, and the buffer has the last of them. -/
theorem stream_in_order (requests : List IpcRequest) {i : Nat} {fd : Int} {pipe : Pipe}
    (hend : EndOf i fd)
    (hpipe : (after IpcManager.respond IpcManager.init requests).getPipe fd = some pipe) :
    let log := transcript IpcManager.respond IpcManager.init requests
    (log.flatMap (delivered i) ++ pipe.buffer.items).Sublist (log.flatMap (accepted i)) ∧
      pipe.buffer.items <:+ log.flatMap (accepted i) := by
  intro log
  have hruns := refines_exchange.after runs_init requests
  have hlog : log = transcript Exchange.serve Exchange.init requests :=
    refines_exchange.transcript_eq runs_init requests
  obtain ⟨j, hj, hobject⟩ := Option.bind_eq_some_iff.mp hpipe
  rw [hruns.channelOf fd] at hj
  obtain rfl := (Exchange.endOf_iff hj).mp hend
  have hshows : pipe.buffer.items = _ := (hruns.carries i pipe hobject).shows
  have hfirst : (Exchange.init.channel i).tape.recorded = [] := rfl
  obtain ⟨hrecorded, hstream⟩ :=
    Exchange.stream_of_run i [] [] hfirst (List.Sublist.refl _) requests
  rw [hlog, hshows]
  rw [List.nil_append] at hrecorded hstream
  refine ⟨hstream, ?_⟩
  rw [← hrecorded]
  exact List.drop_suffix _ _

/-- Two bytes are read through the write end, and one is left. -/
theorem stream_in_order_pair :
    let requests : List IpcRequest :=
      [.createPipe, .createPipe, .onPipe 101 (.write [1, 2, 3]), .onPipe 102 (.write [9]),
        .onPipe 101 (.read 2)]
    let log := transcript IpcManager.respond IpcManager.init requests
    log.flatMap (accepted 0) = [1, 2, 3] ∧ log.flatMap (delivered 0) = [1, 2] ∧
    ∃ pipe, (after IpcManager.respond IpcManager.init requests).getPipe 100 = some pipe ∧
      pipe.buffer.items = [3] ∧ pipe.buffer.items <:+ log.flatMap (accepted 0) := by
  intro requests log
  have hend : EndOf 0 100 := by decide
  refine ⟨by decide, by decide, _, rfl, by decide, ?_⟩
  exact (stream_in_order requests hend rfl).2

/-! ## Parties -/

/-- The users of one pipe, or a process that gets signals. -/
inductive Party
  | pipe (i : Int)
  | process (pid : Int)
  deriving DecidableEq

def IpcRequest.party : IpcRequest → Option Party
  | .createPipe => none
  | .onPipe fd _ => some (.pipe ((fd - 100) / 2))
  | .available fd => some (.pipe ((fd - 100) / 2))
  | .createSignalTable pid => some (.process pid)
  | .hasPendingSignals pid => some (.process pid)
  | .onTable pid _ => some (.process pid)

namespace Exchange

/-- The exchanges look the same to the party; a pipe has been created in both. -/
def Alike (party : Party) (s t : Exchange) : Prop :=
  match party with
  | .pipe i => 0 ≤ i ∧ i < s.count ∧ i < t.count ∧ s.channel i.toNat = t.channel i.toNat
  | .process pid => s.box pid = t.box pid

theorem channelOf_of_pipe {s : Exchange} {fd i : Int} (h : (fd - 100) / 2 = i) (hlow : 0 ≤ i)
    (hhigh : i < s.count) : s.channelOf fd = some i.toNat := by
  unfold channelOf
  rw [if_pos (by omega), h]

theorem channelOf_ne {s : Exchange} {fd i : Int} (h : (fd - 100) / 2 ≠ i) (hlow : 0 ≤ i) :
    s.channelOf fd ≠ some i.toNat := by
  unfold channelOf
  split
  · intro hsome
    have := Option.some.inj hsome
    omega
  · intro hnone
    cases hnone

variable {s t : Exchange} {party : Party}

theorem Alike.onPipe (h : Alike party s t) {fd : Int} (op : Op)
    (hparty : Party.pipe ((fd - 100) / 2) = party) :
    (s.onPipe fd op).1 = (t.onPipe fd op).1 ∧
      Alike party (s.onPipe fd op).2 (t.onPipe fd op).2 := by
  subst hparty
  obtain ⟨hlow, hs, ht, hchannel⟩ := h
  unfold Exchange.onPipe
  rw [channelOf_of_pipe rfl hlow hs, channelOf_of_pipe rfl hlow ht]
  dsimp only
  rw [hchannel]
  refine ⟨rfl, hlow, hs, ht, ?_⟩
  dsimp only
  rw [Function.update_self, Function.update_self]

theorem Alike.onTable (h : Alike party s t) {pid : Int} (call : SignalTable.Call)
    (hparty : Party.process pid = party) :
    (s.onTable pid call).1 = (t.onTable pid call).1 ∧
      Alike party (s.onTable pid call).2 (t.onTable pid call).2 := by
  subst hparty
  have hbox : s.box pid = t.box pid := h
  unfold Exchange.onTable
  rw [hbox]
  cases hfound : t.box pid with
  | none => exact ⟨rfl, h⟩
  | some box =>
      refine ⟨rfl, ?_⟩
      change Function.update s.box pid _ pid = Function.update t.box pid _ pid
      rw [Function.update_self, Function.update_self]

theorem Alike.serve_own (h : Alike party s t) {request : IpcRequest}
    (hparty : request.party = some party) :
    (s.serve request).1 = (t.serve request).1 ∧
      Alike party (s.serve request).2 (t.serve request).2 := by
  cases request with
  | createPipe => cases hparty
  | onPipe fd op => exact h.onPipe op (Option.some.inj hparty)
  | available fd =>
      cases hparty
      refine ⟨?_, h⟩
      obtain ⟨hlow, hs, ht, hchannel⟩ := h
      unfold Exchange.serve
      dsimp only
      rw [channelOf_of_pipe rfl hlow hs, channelOf_of_pipe rfl hlow ht]
      dsimp only
      rw [hchannel]
  | createSignalTable pid =>
      cases hparty
      refine ⟨rfl, ?_⟩
      change Function.update s.box pid _ pid = Function.update t.box pid _ pid
      rw [Function.update_self, Function.update_self]
  | hasPendingSignals pid =>
      cases hparty
      have hbox : s.box pid = t.box pid := h
      refine ⟨?_, h⟩
      unfold Exchange.serve
      dsimp only
      rw [hbox]
  | onTable pid call => exact h.onTable call (Option.some.inj hparty)

theorem Alike.update_channel (h : Alike party s t) {fd : Int} {i : Nat} (c : Channel)
    (hfd : s.channelOf fd = some i) (hparty : Party.pipe ((fd - 100) / 2) ≠ party) :
    Alike party { s with channel := Function.update s.channel i c } t := by
  cases party with
  | process pid => exact h
  | pipe j =>
      obtain ⟨hlow, hs, ht, hchannel⟩ := h
      have hne : j.toNat ≠ i := by
        rintro rfl
        exact channelOf_ne (fun hsame => hparty (congrArg Party.pipe hsame)) hlow hfd
      exact ⟨hlow, hs, ht, (Function.update_of_ne hne _ _).trans hchannel⟩

theorem Alike.update_box (h : Alike party s t) {pid : Int} (box : Mailbox)
    (hparty : Party.process pid ≠ party) :
    Alike party { s with box := Function.update s.box pid (some box) } t := by
  cases party with
  | pipe j => exact h
  | process other =>
      have hne : other ≠ pid := by
        rintro rfl
        exact hparty rfl
      exact (Function.update_of_ne hne _ _).trans h

theorem Alike.serve_other (h : Alike party s t) {request : IpcRequest}
    (hparty : request.party ≠ some party) : Alike party (s.serve request).2 t := by
  cases request with
  | createPipe =>
      cases party with
      | process pid => exact h
      | pipe i =>
          obtain ⟨hlow, hs, ht, hchannel⟩ := h
          refine ⟨hlow, ?_, ht, hchannel⟩
          change i < ((s.count + 1 : Nat) : Int)
          omega
  | onPipe fd op =>
      have hother : Party.pipe ((fd - 100) / 2) ≠ party := fun hsame =>
        hparty (congrArg some hsame)
      change Alike party (s.onPipe fd op).2 t
      unfold Exchange.onPipe
      cases hfd : s.channelOf fd with
      | none => exact h
      | some i => exact h.update_channel _ hfd hother
  | available fd => exact h
  | createSignalTable pid =>
      exact h.update_box _ fun hsame => hparty (congrArg some hsame)
  | hasPendingSignals pid => exact h
  | onTable pid call =>
      have hother : Party.process pid ≠ party := fun hsame => hparty (congrArg some hsame)
      change Alike party (s.onTable pid call).2 t
      unfold Exchange.onTable
      cases hbox : s.box pid with
      | none => exact h
      | some box => exact h.update_box _ hother

theorem separate_party (party : Party) :
    Separate IpcRequest.party (some party) serve (fun _ _ => True) (Alike party) where
  reply _ hparty h := (h.serve_own hparty).1
  own _ hparty h := (h.serve_own hparty).2
  others _ hparty h := h.serve_other hparty

end Exchange

def Party.Present (m : IpcManager) : Party → Prop
  | .pipe i => ∃ pipe, m.getPipe (100 + 2 * i) = some pipe
  | .process _ => True

/-- After any requests, the users of a pipe that has been created, and every process, get in
every interleaving the replies that they would get without all other requests. -/
theorem parties_isolated (setup : List IpcRequest) (party : Party)
    (hpresent : party.Present (after IpcManager.respond IpcManager.init setup))
    (requests : List IpcRequest) :
    let m := after IpcManager.respond IpcManager.init setup
    repliesTo IpcRequest.party (some party) IpcManager.respond m requests =
      replies IpcManager.respond m (requestsOf IpcRequest.party (some party) requests) := by
  intro m
  have hruns : Exchange.Runs m (after Exchange.serve Exchange.init setup) :=
    refines_exchange.after runs_init setup
  have halike : Exchange.Alike party (after Exchange.serve Exchange.init setup)
      (after Exchange.serve Exchange.init setup) := by
    cases party with
    | process pid => exact rfl
    | pipe i =>
        obtain ⟨pipe, hpipe⟩ := hpresent
        obtain ⟨j, hj, -⟩ := Option.bind_eq_some_iff.mp hpipe
        rw [hruns.channelOf] at hj
        have hlt := Exchange.Runs.channelOf_lt hj
        unfold Exchange.channelOf at hj
        split at hj
        · refine ⟨by omega, by omega, by omega, rfl⟩
        · cases hj
  rw [refines_exchange.repliesTo_eq hruns,
    (Exchange.separate_party party).repliesTo_eq halike
      (Run.guarded_of_forall (fun _ _ _ => trivial) _),
    refines_exchange.replies_eq hruns]

/-- The first of two pipes, and a process, among requests of others. -/
theorem parties_isolated_pair :
    let setup : List IpcRequest := [.createPipe, .createSignalTable 7]
    let requests : List IpcRequest :=
      [.onPipe 101 (.write [1, 2]), .createPipe, .onPipe 103 (.write [9]),
        .onTable 7 (.send .sigint), .onPipe 100 (.read 5), .onPipe 102 (.read 5)]
    let m := after IpcManager.respond IpcManager.init setup
    repliesTo IpcRequest.party (some (.pipe 0)) IpcManager.respond m requests =
        replies IpcManager.respond m
          (requestsOf IpcRequest.party (some (.pipe 0)) requests) ∧
      repliesTo IpcRequest.party (some (.pipe 0)) IpcManager.respond m requests =
        [.count 2, .data [1, 2]] := by
  intro setup requests m
  have hpresent : Party.Present m (.pipe 0) := ⟨_, rfl⟩
  exact ⟨parties_isolated setup (.pipe 0) hpresent requests, by decide⟩

end ComputeKernel.Ipc
