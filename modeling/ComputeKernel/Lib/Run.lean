import Mathlib.Data.List.Infix
import Mathlib.Order.Bounds.Defs

/-!
# Runs of a deterministic state machine

A run folds a step function over a list of operations.  The rules below move a
fact about one step to every state of every run, either unconditionally, under
a guard on the steps, or as a bound on how long an event can stay away.
-/

namespace ComputeKernel.Lib.Run

universe u v

variable {σ : Type u} {ω : Type v} (step : σ → ω → σ)

def run (s : σ) (ops : List ω) : σ :=
  ops.foldl step s

@[simp] theorem run_nil (s : σ) : run step s [] = s := rfl

@[simp] theorem run_cons (s : σ) (op : ω) (ops : List ω) :
    run step s (op :: ops) = run step (step s op) ops := rfl

theorem run_append (s : σ) (first second : List ω) :
    run step s (first ++ second) = run step (run step s first) second :=
  List.foldl_append

theorem run_concat (s : σ) (ops : List ω) (op : ω) :
    run step s (ops ++ [op]) = step (run step s ops) op :=
  run_append step s ops [op]

/-- `P` holds in every state of the run, the first and the last included. -/
def Always (P : σ → Prop) (s : σ) : List ω → Prop
  | [] => P s
  | op :: ops => P s ∧ Always P (step s op) ops

def Guarded (G : σ → ω → Prop) (s : σ) : List ω → Prop
  | [] => True
  | op :: ops => G s op ∧ Guarded G (step s op) ops

/-- Some operation of the run is performed in a state that makes it an `E`. -/
def Occurs (E : σ → ω → Prop) (s : σ) : List ω → Prop
  | [] => False
  | op :: ops => E s op ∨ Occurs E (step s op) ops

def count (E : σ → ω → Prop) [∀ s op, Decidable (E s op)] (s : σ) : List ω → Nat
  | [] => 0
  | op :: ops => (if E s op then 1 else 0) + count E (step s op) ops

instance decidableGuarded {G : σ → ω → Prop} [∀ s op, Decidable (G s op)] :
    ∀ (s : σ) (ops : List ω), Decidable (Guarded step G s ops)
  | _, [] => isTrue trivial
  | s, op :: ops =>
      @instDecidableAnd _ _ inferInstance (decidableGuarded (step s op) ops)

variable {step}

theorem always_head {P : σ → Prop} {s : σ} {ops : List ω}
    (h : Always step P s ops) : P s := by
  cases ops with
  | nil => exact h
  | cons op ops => exact h.1

theorem always_iff_prefixes {P : σ → Prop} {s : σ} {ops : List ω} :
    Always step P s ops ↔ ∀ pre, pre <+: ops → P (run step s pre) := by
  induction ops generalizing s with
  | nil => simp [Always]
  | cons op ops ih =>
      simp only [Always, ih]
      constructor
      · rintro ⟨hs, hrest⟩ pre hpre
        cases pre with
        | nil => exact hs
        | cons op' pre =>
            obtain ⟨rfl, htail⟩ := List.cons_prefix_cons.mp hpre
            exact hrest pre htail
      · intro h
        exact ⟨h [] List.nil_prefix,
          fun pre hpre => h (op :: pre) (List.cons_prefix_cons.mpr ⟨rfl, hpre⟩)⟩

theorem guarded_append {G : σ → ω → Prop} {s : σ} {first second : List ω} :
    Guarded step G s (first ++ second) ↔
      Guarded step G s first ∧ Guarded step G (run step s first) second := by
  induction first generalizing s with
  | nil => simp [Guarded]
  | cons op ops ih => simp [Guarded, ih, and_assoc]

theorem occurs_iff {E : σ → ω → Prop} {s : σ} {ops : List ω} :
    Occurs step E s ops ↔
      ∃ pre op post, ops = pre ++ op :: post ∧ E (run step s pre) op := by
  induction ops generalizing s with
  | nil => simp [Occurs]
  | cons op ops ih =>
      simp only [Occurs, ih]
      constructor
      · rintro (h | ⟨pre, op', post, rfl, h⟩)
        · exact ⟨[], op, ops, rfl, h⟩
        · exact ⟨op :: pre, op', post, rfl, h⟩
      · rintro ⟨pre, op', post, hops, h⟩
        cases pre with
        | nil =>
            obtain ⟨rfl, -⟩ := List.cons.inj hops
            exact Or.inl h
        | cons op'' pre =>
            obtain ⟨rfl, rfl⟩ := List.cons.inj hops
            exact Or.inr ⟨pre, op', post, rfl, h⟩

theorem guarded_iff_not_occurs {E : σ → ω → Prop} {s : σ} {ops : List ω} :
    Guarded step (fun s op => ¬ E s op) s ops ↔ ¬ Occurs step E s ops := by
  induction ops generalizing s with
  | nil => simp [Guarded, Occurs]
  | cons op ops ih => simp only [Guarded, Occurs, ih, not_or]

theorem guarded_congr {G H : σ → ω → Prop} (h : ∀ s op, G s op ↔ H s op) {s : σ}
    {ops : List ω} : Guarded step G s ops ↔ Guarded step H s ops := by
  have hguards : G = H := funext fun s => funext fun op => propext (h s op)
  rw [hguards]

theorem guarded_of_invariant {P : σ → Prop} {G Q : σ → ω → Prop}
    (hkeep : ∀ s op, P s → G s op → P (step s op)) (hQ : ∀ s op, P s → G s op → Q s op)
    {s : σ} {ops : List ω} (hs : P s) (hG : Guarded step G s ops) : Guarded step Q s ops := by
  induction ops generalizing s with
  | nil => trivial
  | cons op ops ih => exact ⟨hQ s op hs hG.1, ih (hkeep s op hs hG.1) hG.2⟩

theorem guarded_of_forall {G : σ → ω → Prop} {ops : List ω} (h : ∀ op ∈ ops, ∀ s, G s op)
    (s : σ) : Guarded step G s ops := by
  induction ops generalizing s with
  | nil => trivial
  | cons op ops ih =>
      obtain ⟨hop, hrest⟩ := List.forall_mem_cons.mp h
      exact ⟨hop s, ih hrest (step s op)⟩

theorem always_append {P : σ → Prop} {s : σ} {first second : List ω} :
    Always step P s (first ++ second) ↔
      Always step P s first ∧ Always step P (run step s first) second := by
  induction first generalizing s with
  | nil =>
      change Always step P s second ↔ P s ∧ Always step P s second
      exact (and_iff_right_of_imp always_head).symm
  | cons op ops ih => simp only [List.cons_append, Always, ih, run_cons, and_assoc]

theorem always_concat {P : σ → Prop} {s : σ} {ops : List ω} {op : ω}
    (h : Always step P s ops) (hlast : P (step (run step s ops) op)) :
    Always step P s (ops ++ [op]) := by
  rw [always_append]
  have hend := always_iff_prefixes.mp h ops (List.prefix_refl ops)
  exact ⟨h, hend, hlast⟩

theorem run_of_guarded {P : σ → Prop} {G : σ → ω → Prop}
    (hstep : ∀ s op, P s → G s op → P (step s op)) {s : σ} {ops : List ω}
    (hs : P s) (hG : Guarded step G s ops) : P (run step s ops) := by
  induction ops generalizing s with
  | nil => exact hs
  | cons op ops ih => exact ih (hstep s op hs hG.1) hG.2

theorem run_keeps {I P : σ → Prop} (hI : ∀ s op, I s → I (step s op))
    (hP : ∀ s op, I s → P s → P (step s op)) {s : σ} (hIs : I s) (hs : P s)
    (ops : List ω) : P (run step s ops) := by
  induction ops generalizing s with
  | nil => exact hs
  | cons op ops ih => exact ih (hI s op hIs) (hP s op hIs hs)

theorem run_invariant {P : σ → Prop} (hstep : ∀ s op, P s → P (step s op))
    {s : σ} (hs : P s) (ops : List ω) : P (run step s ops) :=
  run_keeps hstep (fun s op h _ => hstep s op h) hs hs ops

theorem run_map {τ : Type*} {step' : τ → ω → τ} (proj : σ → τ)
    (hstep : ∀ s op, proj (step s op) = step' (proj s) op) (s : σ) (ops : List ω) :
    proj (run step s ops) = run step' (proj s) ops :=
  (List.foldl_hom proj fun s op => (hstep s op).symm).symm

theorem guarded_map {τ : Type*} {step' : τ → ω → τ} {G : τ → ω → Prop} (proj : σ → τ)
    (hstep : ∀ s op, proj (step s op) = step' (proj s) op) (s : σ) (ops : List ω) :
    Guarded step (fun s op => G (proj s) op) s ops ↔ Guarded step' G (proj s) ops := by
  induction ops generalizing s with
  | nil => rfl
  | cons op ops ih => simp only [Guarded, ih, hstep]

/-- With an invariant `I` of all steps: if the permitted steps keep `P` and are `Q`, and
every other step breaks one of the two, then `P` holds throughout a run all of whose
steps are `Q` exactly when all of its steps are permitted. -/
theorem always_and_guarded_iff {I P : σ → Prop} {Q G : σ → ω → Prop}
    (hI : ∀ s op, I s → I (step s op))
    (hkeep : ∀ s op, I s → P s → G s op → P (step s op) ∧ Q s op)
    (hbreak : ∀ s op, I s → P s → ¬ G s op → Q s op → ¬ P (step s op))
    {s : σ} {ops : List ω} (hIs : I s) (hs : P s) :
    Always step P s ops ∧ Guarded step Q s ops ↔ Guarded step G s ops := by
  induction ops generalizing s with
  | nil => exact ⟨fun _ => trivial, fun _ => ⟨hs, trivial⟩⟩
  | cons op ops ih =>
      constructor
      · rintro ⟨⟨-, hrest⟩, hQ, hrestQ⟩
        have hop : G s op := by
          by_contra hG
          exact hbreak s op hIs hs hG hQ (always_head hrest)
        have hkept := hkeep s op hIs hs hop
        exact ⟨hop, (ih (hI s op hIs) hkept.1).mp ⟨hrest, hrestQ⟩⟩
      · rintro ⟨hop, hrest⟩
        have hkept := hkeep s op hIs hs hop
        obtain ⟨hP, hQ⟩ := (ih (hI s op hIs) hkept.1).mpr hrest
        exact ⟨⟨hs, hP⟩, hkept.2, hQ⟩

theorem always_iff_guarded_of_invariant {I P : σ → Prop} {G : σ → ω → Prop}
    (hI : ∀ s op, I s → I (step s op))
    (hkeep : ∀ s op, I s → P s → G s op → P (step s op))
    (hbreak : ∀ s op, I s → P s → ¬ G s op → ¬ P (step s op)) {s : σ} {ops : List ω}
    (hIs : I s) (hs : P s) : Always step P s ops ↔ Guarded step G s ops := by
  rw [← always_and_guarded_iff (Q := fun _ _ => True) hI
    (fun s op hIs hs hG => ⟨hkeep s op hIs hs hG, trivial⟩)
    (fun s op hIs hs hG _ => hbreak s op hIs hs hG) hIs hs]
  exact (and_iff_left (guarded_of_forall (fun _ _ _ => trivial) s)).symm

theorem always_iff_guarded_within {I P : σ → Prop} {Q G : σ → ω → Prop}
    (hI : ∀ s op, I s → P s → Q s op → G s op → I (step s op))
    (hkeep : ∀ s op, I s → P s → Q s op → G s op → P (step s op))
    (hbreak : ∀ s op, I s → P s → Q s op → ¬ G s op → ¬ P (step s op))
    {s : σ} {ops : List ω} (hIs : I s) (hs : P s) (hQ : Guarded step Q s ops) :
    Always step P s ops ↔ Guarded step G s ops := by
  induction ops generalizing s with
  | nil => exact ⟨fun _ => trivial, fun _ => hs⟩
  | cons op ops ih =>
      obtain ⟨hop, hrest⟩ := hQ
      constructor
      · rintro ⟨-, hall⟩
        have hpermitted : G s op := by
          by_contra hG
          exact hbreak s op hIs hs hop hG (always_head hall)
        have hnext := hI s op hIs hs hop hpermitted
        have hkept := hkeep s op hIs hs hop hpermitted
        exact ⟨hpermitted, (ih hnext hkept hrest).mp hall⟩
      · rintro ⟨hpermitted, hall⟩
        have hnext := hI s op hIs hs hop hpermitted
        have hkept := hkeep s op hIs hs hop hpermitted
        exact ⟨hs, (ih hnext hkept hrest).mpr hall⟩

/-- A failure that stays can be seen at the end of a run: if the permitted steps keep `P`,
every other step leads to a `B`, no step leaves `B`, and no `B` is a `P`, then a run ends in
a `P` exactly when all of its steps are permitted. -/
theorem run_iff_guarded {P B : σ → Prop} {G : σ → ω → Prop}
    (hkeep : ∀ s op, P s → G s op → P (step s op))
    (hbreak : ∀ s op, P s → ¬ G s op → B (step s op))
    (hstay : ∀ s op, B s → B (step s op)) (hB : ∀ s, B s → ¬ P s)
    {s : σ} {ops : List ω} (hs : P s) : P (run step s ops) ↔ Guarded step G s ops := by
  induction ops generalizing s with
  | nil => exact iff_of_true hs trivial
  | cons op ops ih =>
      by_cases hG : G s op
      · rw [run_cons, ih (hkeep s op hs hG)]
        exact (and_iff_right hG).symm
      · have hend := run_invariant hstay (hbreak s op hs hG) ops
        exact iff_of_false (hB _ hend) fun hall => hG hall.1

theorem always_iff_guarded {P : σ → Prop} {G : σ → ω → Prop}
    (hkeep : ∀ s op, P s → G s op → P (step s op))
    (hbreak : ∀ s op, P s → ¬ G s op → ¬ P (step s op)) {s : σ} {ops : List ω}
    (hs : P s) : Always step P s ops ↔ Guarded step G s ops :=
  always_iff_guarded_of_invariant (I := fun _ => True) (fun _ _ _ => trivial)
    (fun s op _ => hkeep s op) (fun s op _ => hbreak s op) trivial hs

/-- Ranking rule.  While the event stays away every counted operation lowers
`measure` and no operation raises it, so the event occurs in any run with more
counted operations than the initial measure. -/
theorem occurs_of_measure {P : σ → Prop} {G E : σ → ω → Prop}
    {counted : ω → Bool} {measure : σ → Nat}
    (hkeep : ∀ s op, P s → G s op → P (step s op))
    (hrank : ∀ s op, P s → G s op → ¬ E s op →
      measure (step s op) + (if counted op then 1 else 0) ≤ measure s)
    {s : σ} {ops : List ω} (hs : P s) (hG : Guarded step G s ops)
    (hcount : measure s < ops.countP counted) : Occurs step E s ops := by
  induction ops generalizing s with
  | nil => simp at hcount
  | cons op ops ih =>
      by_cases hE : E s op
      · exact Or.inl hE
      · have hrank := hrank s op hs hG.1 hE
        refine Or.inr (ih (hkeep s op hs hG.1) hG.2 ?_)
        rw [List.countP_cons] at hcount
        omega

/-- Potential rule.  Where each event moves a potential by its own amount and nothing else
does, the events of a run are counted by what the potential has moved. -/
theorem count_of_potential {P : σ → Prop} {G E F : σ → ω → Prop}
    [∀ s op, Decidable (E s op)] [∀ s op, Decidable (F s op)] (potential : σ → Int) {up down : Int}
    (hkeep : ∀ s op, P s → G s op → P (step s op))
    (hmove : ∀ s op, P s → G s op → potential (step s op) =
      potential s + up * (if E s op then 1 else 0) - down * (if F s op then 1 else 0))
    {s : σ} {ops : List ω} (hs : P s) (hG : Guarded step G s ops) :
    up * count step E s ops - down * count step F s ops =
      potential (run step s ops) - potential s := by
  induction ops generalizing s with
  | nil => simp [count]
  | cons op ops ih =>
      have hrest := ih (hkeep s op hs hG.1) hG.2
      have hfirst := hmove s op hs hG.1
      have hcast : ∀ (q : Prop) [Decidable q],
          ((if q then 1 else 0 : Nat) : Int) = if q then 1 else 0 := by
        intro q _
        split <;> rfl
      rw [run_cons, count, count]
      rw [Int.natCast_add, Int.natCast_add, hcast, hcast, Int.mul_add, Int.mul_add]
      omega

/-- High-water rule.  A mark that never falls and is raised only to the current count
is the largest count of the run. -/
theorem isGreatest_mark {α : Type*} [Preorder α] {I : σ → Prop} (count mark : σ → α)
    (hI : ∀ s op, I s → I (step s op)) (hle : ∀ s, I s → count s ≤ mark s)
    (hmono : ∀ s op, I s → mark s ≤ mark (step s op))
    (hraise : ∀ s op, I s → mark (step s op) = mark s ∨
      mark (step s op) = count (step s op))
    {s : σ} (hs : I s) (hstart : count s = mark s) (ops : List ω) :
    IsGreatest {n | ∃ pre, pre <+: ops ∧ count (run step s pre) = n}
      (mark (run step s ops)) := by
  induction ops using List.reverseRecOn with
  | nil =>
      refine ⟨⟨[], List.nil_prefix, hstart⟩, ?_⟩
      rintro n ⟨pre, hpre, rfl⟩
      rw [List.prefix_nil.mp hpre]
      exact hle s hs
  | append_singleton ops op ih =>
      have hinv := run_invariant hI hs ops
      have hlast := run_concat step s ops op
      constructor
      · rcases hraise (run step s ops) op hinv with hsame | hcount
        · obtain ⟨pre, hpre, hmax⟩ := ih.1
          refine ⟨pre, hpre.trans (List.prefix_append ops [op]), ?_⟩
          rw [hlast, hsame, hmax]
        · refine ⟨ops ++ [op], List.prefix_refl _, ?_⟩
          rw [hlast, hcount]
      · rintro n ⟨pre, hpre, rfl⟩
        rw [hlast]
        rcases List.prefix_concat_iff.mp hpre with hall | hpre
        · rw [hall, hlast]
          exact hle _ (hI _ op hinv)
        · exact (ih.2 ⟨pre, hpre, rfl⟩).trans (hmono _ op hinv)

end ComputeKernel.Lib.Run
