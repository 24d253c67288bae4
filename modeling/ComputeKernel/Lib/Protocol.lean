import ComputeKernel.Lib.Run

/-!
# Protocols

A protocol says which event may come next in which phase.  A machine whose steps are seen as
events, or go unseen, conforms to it when every step takes its phase where the protocol takes
it; then the events of each run are a legal history, and the phase can be read off it.
-/

namespace ComputeKernel.Lib.Protocol

open Lib.Run

universe u v

variable {σ : Type u} {ω : Type v} {φ ε : Type*}

def advance (next : φ → ε → Option φ) (phase : φ) : Option ε → Option φ
  | none => some phase
  | some e => next phase e

/-- The phase after a history; there is none when the protocol forbids some event of it. -/
def replay (next : φ → ε → Option φ) (phase : φ) (events : List ε) : Option φ :=
  events.foldlM next phase

def history (step : σ → ω → σ) (event : σ → ω → Option ε) (s : σ) : List ω → List ε
  | [] => []
  | op :: ops => (event s op).toList ++ history step event (step s op) ops

theorem replay_toList_append (next : φ → ε → Option φ) (phase : φ) (e : Option ε)
    (events : List ε) :
    replay next phase (e.toList ++ events) =
      (advance next phase e).bind fun after => replay next after events := by
  cases e with
  | none => rfl
  | some e => exact List.foldlM_cons

/-- The history of a conforming machine is legal and leads to its phase. -/
theorem replay_history {I : σ → Prop} {step : σ → ω → σ} {event : σ → ω → Option ε}
    {next : φ → ε → Option φ} {phase : σ → φ} (hI : ∀ s op, I s → I (step s op))
    (hstep : ∀ s op, I s → advance next (phase s) (event s op) = some (phase (step s op)))
    {s : σ} (hs : I s) (ops : List ω) :
    replay next (phase s) (history step event s ops) = some (phase (run step s ops)) := by
  induction ops generalizing s with
  | nil => rfl
  | cons op ops ih =>
      rw [history, replay_toList_append, hstep s op hs]
      exact ih (hI s op hs)

end ComputeKernel.Lib.Protocol
