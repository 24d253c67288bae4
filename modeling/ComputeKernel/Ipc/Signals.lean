import Mathlib.Data.Finset.Erase
import Mathlib.Data.Finset.Insert
import ComputeKernel.Base
import ComputeKernel.Lib.Run

/-!
# Signals

The mask of a signal table is looked at when a signal is sent: a signal that is blocked at
that moment is discarded.  The queue of pending signals is emptied from the front, whatever
the mask is by then.
-/

namespace ComputeKernel.Ipc

open Lib.Run

inductive Signal
  | sighup
  | sigterm
  | sigkill
  | sigchld
  | sigusr1
  | sigusr2
  | sigsegv
  | sigint
  | sigstop
  deriving DecidableEq, Repr

structure SignalTable where
  pid : Int
  pending : List Signal
  blocked : Finset Signal
  deriving DecidableEq

namespace SignalTable

def init (pid : Int) : SignalTable :=
  ⟨pid, [], ∅⟩

/-- The mask lets the signal through; `sigkill` and `sigstop` cannot be blocked. -/
def Passes (t : SignalTable) (sig : Signal) : Prop :=
  sig ∉ t.blocked ∨ sig = .sigkill ∨ sig = .sigstop

instance (t : SignalTable) (sig : Signal) : Decidable (t.Passes sig) :=
  inferInstanceAs (Decidable (_ ∨ _))

def send (t : SignalTable) (sig : Signal) : SignalTable :=
  if t.Passes sig then { t with pending := t.pending ++ [sig] } else t

def hasPending (t : SignalTable) : Bool :=
  !t.pending.isEmpty

def nextSignal (t : SignalTable) : Option Signal × SignalTable :=
  match t.pending with
  | [] => (none, t)
  | sig :: rest => (some sig, { t with pending := rest })

def block (t : SignalTable) (sig : Signal) : SignalTable :=
  { t with blocked := insert sig t.blocked }

def unblock (t : SignalTable) (sig : Signal) : SignalTable :=
  { t with blocked := t.blocked.erase sig }

inductive Call
  | send (sig : Signal)
  | block (sig : Signal)
  | unblock (sig : Signal)
  | nextSignal
  deriving DecidableEq, Repr

def perform (t : SignalTable) : Call → SignalTable
  | .send sig => t.send sig
  | .block sig => t.block sig
  | .unblock sig => t.unblock sig
  | .nextSignal => t.nextSignal.2

def drainLoop : Nat → SignalTable → List Signal × SignalTable
  | 0, t => ([], t)
  | n + 1, t =>
      match t.nextSignal with
      | (none, t) => ([], t)
      | (some sig, t) => (sig :: (drainLoop n t).1, (drainLoop n t).2)

def drain (t : SignalTable) : List Signal × SignalTable :=
  drainLoop (t.pending.length + 1) t

theorem send_of_passes {t : SignalTable} {sig : Signal} (h : t.Passes sig) :
    t.send sig = { t with pending := t.pending ++ [sig] } :=
  if_pos h

theorem send_of_not_passes {t : SignalTable} {sig : Signal} (h : ¬ t.Passes sig) :
    t.send sig = t :=
  if_neg h

theorem nextSignal_fst (t : SignalTable) : t.nextSignal.1 = t.pending.head? := by
  unfold nextSignal
  split
  · rename_i hnil
    rw [hnil, List.head?_nil]
  · rename_i hcons
    rw [hcons, List.head?_cons]

theorem nextSignal_snd (t : SignalTable) :
    t.nextSignal.2 = { t with pending := t.pending.tail } := by
  unfold nextSignal
  split
  · rename_i hnil
    rw [hnil, List.tail_nil, ← hnil]
  · rename_i hcons
    rw [hcons, List.tail_cons]

theorem drain_eq (t : SignalTable) : t.drain = (t.pending, { t with pending := [] }) := by
  rcases t with ⟨pid, pending, blocked⟩
  change drainLoop (pending.length + 1) _ = _
  induction pending with
  | nil => rfl
  | cons sig rest ih =>
      rw [List.length_cons, drainLoop]
      change (sig :: (drainLoop (rest.length + 1) ⟨pid, rest, blocked⟩).1,
        (drainLoop (rest.length + 1) ⟨pid, rest, blocked⟩).2) = _
      rw [ih]

/-! ## Signals that were sent -/

def Returns (sig : Signal) (t : SignalTable) (call : Call) : Prop :=
  call = .nextSignal ∧ t.nextSignal.1 = some sig

theorem mem_pending_send (t : SignalTable) (sent : Signal) {sig : Signal}
    (h : sig ∈ t.pending) : sig ∈ (t.send sent).pending := by
  unfold send
  split
  · exact List.mem_append_left _ h
  · exact h

theorem mem_pending_perform (t : SignalTable) (call : Call) {sig : Signal}
    (h : sig ∈ t.pending) (hreturn : ¬ Returns sig t call) : sig ∈ (t.perform call).pending := by
  cases call with
  | send sent => exact t.mem_pending_send sent h
  | block other => exact h
  | unblock other => exact h
  | nextSignal =>
      change sig ∈ t.nextSignal.2.pending
      have hne : t.pending.head? ≠ some sig := by
        intro hhead
        exact hreturn ⟨rfl, t.nextSignal_fst.trans hhead⟩
      rw [nextSignal_snd]
      cases hpending : t.pending with
      | nil =>
          rw [hpending] at h
          cases h
      | cons first rest =>
          rw [hpending] at h hne
          rcases List.mem_cons.mp h with rfl | hrest
          · exact absurd rfl hne
          · exact hrest

/-- A signal that the mask lets through stays pending until it is returned, and draining the
queue returns it once it is unblocked. -/
def Kept (t : SignalTable) (sig : Signal) : Prop :=
  ∀ calls, ¬ Occurs perform (Returns sig) (t.send sig) calls →
    sig ∈ (run perform (t.send sig) calls).pending ∧
    sig ∈ ((run perform (t.send sig) calls).unblock sig).drain.1 ∧
    ((run perform (t.send sig) calls).unblock sig).drain.2.nextSignal.1 = none

theorem kept_of_passes {t : SignalTable} {sig : Signal} (h : t.Passes sig) : t.Kept sig := by
  intro calls hreturn
  have hsent : sig ∈ (t.send sig).pending := by
    rw [send_of_passes h]
    exact List.mem_append_right _ (List.mem_singleton.mpr rfl)
  have hpending : sig ∈ (run perform (t.send sig) calls).pending := by
    apply run_of_guarded (P := fun t => sig ∈ t.pending) _ hsent
      (guarded_iff_not_occurs.mpr hreturn)
    exact fun t call hmem hcall => t.mem_pending_perform call hmem hcall
  rw [drain_eq]
  exact ⟨hpending, hpending, rfl⟩

/-- In every state that calls lead to, sending a signal that the mask holds back changes
nothing, and a signal that it lets through is kept. -/
theorem send_discards_or_keeps (pid : Int) (calls : List Call) (sig : Signal) :
    let t := run perform (init pid) calls
    (¬ t.Passes sig ∧ t.send sig = t) ∨ (t.Passes sig ∧ t.Kept sig) := by
  intro t
  by_cases h : t.Passes sig
  · exact Or.inr ⟨h, kept_of_passes h⟩
  · exact Or.inl ⟨h, send_of_not_passes h⟩

/-- A signal that is sent while it is blocked is never returned. -/
theorem sent_while_blocked_lost :
    let t := run perform (init 1) [.block .sigusr1, .send .sigusr1]
    ¬ Occurs perform (Returns .sigusr1) (init 1) [.block .sigusr1, .send .sigusr1] ∧
    Signal.sigusr1 ∉ t.pending ∧ (t.unblock .sigusr1).drain.1 = [] := by
  intro t
  refine ⟨?_, by decide, by decide⟩
  rintro (⟨hcall, -⟩ | ⟨hcall, -⟩ | hnone)
  · cases hcall
  · cases hcall
  · exact hnone

/-! ## The mask and delivery -/

/-- `nextSignal` returns the first pending signal that is not blocked, if there is one, and
no blocked signal. -/
def RespectsMask (t : SignalTable) : Call → Prop
  | .nextSignal =>
      (∀ sig, t.nextSignal.1 = some sig → t.Passes sig) ∧
      ∀ before sig after, t.pending = before ++ sig :: after →
        (∀ first ∈ before, ¬ t.Passes first) → t.Passes sig → t.nextSignal.1 = some sig
  | _ => True

def FrontPasses (t : SignalTable) : Call → Prop
  | .nextSignal => ∀ sig, t.pending.head? = some sig → t.Passes sig
  | _ => True

/-- No signal is blocked while it is pending, except those that cannot be blocked. -/
def BlocksAbsent (t : SignalTable) : Call → Prop
  | .block sig => sig ∉ t.pending ∨ sig = .sigkill ∨ sig = .sigstop
  | _ => True

theorem respectsMask_iff (t : SignalTable) (call : Call) :
    t.RespectsMask call ↔ t.FrontPasses call := by
  cases call with
  | nextSignal =>
      simp only [RespectsMask, FrontPasses, nextSignal_fst]
      apply and_iff_left_of_imp
      intro hfront before sig after hsplit hblocked _
      cases before with
      | nil => rw [hsplit, List.nil_append, List.head?_cons]
      | cons first before =>
          -- the signal at the front is blocked
          have hfirst : t.Passes first := hfront first (by rw [hsplit]; rfl)
          exact absurd hfirst (hblocked first List.mem_cons_self)
  | send sig => exact Iff.rfl
  | block sig => exact Iff.rfl
  | unblock sig => exact Iff.rfl

def AllPass (t : SignalTable) : Prop :=
  ∀ sig ∈ t.pending, t.Passes sig

theorem allPass_perform (t : SignalTable) (call : Call) (h : t.AllPass)
    (hcall : t.BlocksAbsent call) : (t.perform call).AllPass := by
  cases call with
  | send sent =>
      change (t.send sent).AllPass
      by_cases hpasses : t.Passes sent
      · rw [send_of_passes hpasses]
        intro sig hsig
        rcases List.mem_append.mp hsig with hold | hnew
        · exact h sig hold
        · rw [List.mem_singleton.mp hnew]
          exact hpasses
      · rwa [send_of_not_passes hpasses]
  | block blocked =>
      intro sig hsig
      have hmem : sig ∈ t.pending := hsig
      rcases h sig hmem with hfree | hnever
      · by_cases heq : sig = blocked
        · rw [heq] at hmem ⊢
          exact Or.inr (hcall.resolve_left (not_not.mpr hmem))
        · refine Or.inl fun hnew => ?_
          rcases Finset.mem_insert.mp hnew with hself | hold
          · exact heq hself
          · exact hfree hold
      · exact Or.inr hnever
  | unblock blocked =>
      intro sig hsig
      rcases h sig hsig with hfree | hnever
      · exact Or.inl fun hold => hfree (Finset.mem_of_mem_erase hold)
      · exact Or.inr hnever
  | nextSignal =>
      change t.nextSignal.2.AllPass
      rw [nextSignal_snd]
      intro sig hsig
      exact h sig (List.mem_of_mem_tail hsig)

theorem frontPasses_of_allPass (t : SignalTable) (call : Call) (h : t.AllPass) :
    t.FrontPasses call := by
  cases call with
  | nextSignal => exact fun sig hhead => h sig (List.mem_of_head? hhead)
  | send sig => trivial
  | block sig => trivial
  | unblock sig => trivial

/-- The mask is respected throughout a run exactly when it lets the oldest pending signal
through at every call of `nextSignal`, and so in every run that blocks no pending signal. -/
theorem guarded_respectsMask_iff (pid : Int) (calls : List Call) :
    (Guarded perform RespectsMask (init pid) calls ↔
      Guarded perform FrontPasses (init pid) calls) ∧
    (Guarded perform BlocksAbsent (init pid) calls →
      Guarded perform RespectsMask (init pid) calls) := by
  have hiff : Guarded perform RespectsMask (init pid) calls ↔
      Guarded perform FrontPasses (init pid) calls := guarded_congr respectsMask_iff
  refine ⟨hiff, fun hblocks => hiff.mpr ?_⟩
  apply guarded_of_invariant allPass_perform
    (fun s op h _ => frontPasses_of_allPass s op h) _ hblocks
  intro sig hsig
  cases hsig

/-- A signal is blocked before it is sent, and another one is delivered. -/
theorem guarded_respectsMask_blocked :
    let calls : List Call := [.block .sigusr1, .send .sigusr1, .send .sigusr2, .nextSignal]
    Guarded perform BlocksAbsent (init 1) calls ∧ Guarded perform RespectsMask (init 1) calls := by
  intro calls
  have hblocks : Guarded perform BlocksAbsent (init 1) calls :=
    ⟨Or.inl (by decide), trivial, trivial, trivial, trivial⟩
  exact ⟨hblocks, (guarded_respectsMask_iff 1 calls).2 hblocks⟩

/-- A signal that is blocked after it was sent is delivered, before one that is not blocked. -/
theorem blocked_delivered :
    let calls : List Call := [.send .sigusr1, .send .sigusr2, .block .sigusr1]
    let t := run perform (init 1) calls
    t.nextSignal.1 = some .sigusr1 ∧ ¬ t.Passes .sigusr1 ∧ t.Passes .sigusr2 ∧
    ¬ Guarded perform RespectsMask (init 1) (calls ++ [.nextSignal]) := by
  intro calls t
  have hnext : t.nextSignal.1 = some .sigusr1 := rfl
  have hblocked : ¬ t.Passes .sigusr1 := by decide
  refine ⟨hnext, hblocked, by decide, ?_⟩
  intro h
  have hlast := (guarded_append.mp h).2.1
  exact hblocked (hlast.1 .sigusr1 hnext)

end SignalTable

end ComputeKernel.Ipc
