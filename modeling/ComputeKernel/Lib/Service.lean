import ComputeKernel.Lib.Run

/-!
# Services

A service answers requests one after the other.  It refines a specification when related
states give the same replies and stay related.  A client is separate when the requests of
others change nothing that its own replies depend on; its replies in any interleaving are
then those it would get alone.
-/

namespace ComputeKernel.Lib.Service

open Run

universe u v

variable {σ τ : Type*} {ω : Type u} {β : Type v}

section Runs

variable (serve : σ → ω → β × σ)

def replies (s : σ) : List ω → List β
  | [] => []
  | op :: ops => (serve s op).1 :: replies (serve s op).2 ops

def transcript (s : σ) : List ω → List (ω × β)
  | [] => []
  | op :: ops => (op, (serve s op).1) :: transcript (serve s op).2 ops

def after (s : σ) (ops : List ω) : σ :=
  run (fun s op => (serve s op).2) s ops

@[simp] theorem replies_cons (s : σ) (op : ω) (ops : List ω) :
    replies serve s (op :: ops) = (serve s op).1 :: replies serve (serve s op).2 ops := rfl

end Runs

/-! ## Refinement -/

structure Refines (R : σ → τ → Prop) (serve : σ → ω → β × σ) (spec : τ → ω → β × τ) :
    Prop where
  reply : ∀ {s t}, R s t → ∀ op, (serve s op).1 = (spec t op).1
  next : ∀ {s t}, R s t → ∀ op, R (serve s op).2 (spec t op).2

section Refinement

variable {R : σ → τ → Prop} {serve : σ → ω → β × σ} {spec : τ → ω → β × τ}

theorem Refines.after (h : Refines R serve spec) {s : σ} {t : τ} (hst : R s t) (ops : List ω) :
    R (after serve s ops) (after spec t ops) := by
  induction ops generalizing s t with
  | nil => exact hst
  | cons op ops ih => exact ih (h.next hst op)

theorem Refines.replies_eq (h : Refines R serve spec) {s : σ} {t : τ} (hst : R s t)
    (ops : List ω) : replies serve s ops = replies spec t ops := by
  induction ops generalizing s t with
  | nil => rfl
  | cons op ops ih => rw [replies_cons, replies_cons, h.reply hst op, ih (h.next hst op)]

theorem Refines.guarded (h : Refines R serve spec) {G : σ → ω → Prop} {H : τ → ω → Prop}
    (hguard : ∀ {s t op}, R s t → G s op → H t op) {s : σ} {t : τ} (hst : R s t) {ops : List ω}
    (hG : Guarded (fun s op => (serve s op).2) G s ops) :
    Guarded (fun t op => (spec t op).2) H t ops := by
  induction ops generalizing s t with
  | nil => trivial
  | cons op ops ih => exact ⟨hguard hst hG.1, ih (h.next hst op) hG.2⟩

theorem Refines.transcript_eq (h : Refines R serve spec) {s : σ} {t : τ} (hst : R s t)
    (ops : List ω) : transcript serve s ops = transcript spec t ops := by
  induction ops generalizing s t with
  | nil => rfl
  | cons op ops ih => rw [transcript, transcript, h.reply hst op, ih (h.next hst op)]

end Refinement

/-! ## Clients -/

section Clients

variable {ι : Type*} {serve : σ → ω → β × σ}

def tagged (serve : σ → ω → β × σ) : σ → ι × ω → β × σ :=
  fun s op => serve s op.2

theorem replies_tagged (s : σ) (ops : List (ι × ω)) :
    replies (tagged serve) s ops = replies serve s (ops.map Prod.snd) := by
  induction ops generalizing s with
  | nil => rfl
  | cons op ops ih => exact congrArg _ (ih _)

theorem Refines.tagged {R : σ → τ → Prop} {spec : τ → ω → β × τ} (h : Refines R serve spec) :
    Refines R (tagged serve : σ → ι × ω → β × σ) (tagged spec) where
  reply hst op := h.reply hst op.2
  next hst op := h.next hst op.2

variable [DecidableEq ι] (owner : ω → ι) (i : ι)

def repliesTo (serve : σ → ω → β × σ) (s : σ) : List ω → List β
  | [] => []
  | op :: ops =>
      if owner op = i then (serve s op).1 :: repliesTo serve (serve s op).2 ops
      else repliesTo serve (serve s op).2 ops

def requestsOf (ops : List ω) : List ω :=
  ops.filter fun op => owner op = i

/-- States that look the same to the client stay so: its own requests get the same replies
in both, and those of the others go unnoticed. -/
structure Separate (serve : σ → ω → β × σ) (Valid : σ → ω → Prop) (Same : σ → σ → Prop) :
    Prop where
  reply : ∀ {s t op}, Valid s op → owner op = i → Same s t → (serve s op).1 = (serve t op).1
  own : ∀ {s t op}, Valid s op → owner op = i → Same s t → Same (serve s op).2 (serve t op).2
  others : ∀ {s t op}, Valid s op → owner op ≠ i → Same s t → Same (serve s op).2 t

variable {owner i} {Valid : σ → ω → Prop} {Same : σ → σ → Prop}

theorem Separate.repliesTo_eq (h : Separate owner i serve Valid Same) {s t : σ}
    (hst : Same s t) {ops : List ω} (hvalid : Guarded (fun s op => (serve s op).2) Valid s ops) :
    repliesTo owner i serve s ops = replies serve t (requestsOf owner i ops) := by
  induction ops generalizing s t with
  | nil => rfl
  | cons op ops ih =>
      obtain ⟨hop, hops⟩ := hvalid
      unfold repliesTo requestsOf
      by_cases howner : owner op = i
      · rw [if_pos howner, List.filter_cons_of_pos (by simpa using howner), replies_cons,
          h.reply hop howner hst]
        exact congrArg _ (ih (h.own hop howner hst) hops)
      · rw [if_neg howner, List.filter_cons_of_neg (by simpa using howner)]
        exact ih (h.others hop howner hst) hops

theorem Refines.repliesTo_eq {R : σ → τ → Prop} {spec : τ → ω → β × τ}
    (h : Refines R serve spec) {s : σ} {t : τ} (hst : R s t) (ops : List ω) :
    repliesTo owner i serve s ops = repliesTo owner i spec t ops := by
  induction ops generalizing s t with
  | nil => rfl
  | cons op ops ih =>
      unfold repliesTo
      rw [h.reply hst op, ih (h.next hst op)]

end Clients

end ComputeKernel.Lib.Service
