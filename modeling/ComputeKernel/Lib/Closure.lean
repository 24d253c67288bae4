import ComputeKernel.Lib.Run
import Mathlib.Data.Set.Insert
import Mathlib.Logic.Relation

/-!
# Elements that can be derived

An element with premises is derived once all of them are, and an element without any list of
premises never is.  The derivable elements are those below which the premises neither miss
nor come back in a circle.  Marking what is ready, over and over and in any order, marks
exactly these.
-/

namespace ComputeKernel.Lib.Closure

universe u

variable {α : Type u} {premises : α → Option (List α)}

def Premise (premises : α → Option (List α)) (p a : α) : Prop :=
  ∃ ps, premises a = some ps ∧ p ∈ ps

/-- No chain of premises that leads to the element goes on for ever, or comes from an element
without premises of its own. -/
def Derivable (premises : α → Option (List α)) (a : α) : Prop :=
  Acc (Premise premises) a ∧
    ∀ b, Relation.ReflTransGen (Premise premises) b a → (premises b).isSome

def Ready (premises : α → Option (List α)) (marked : Set α) (a : α) : Prop :=
  ∃ ps, premises a = some ps ∧ ∀ p ∈ ps, p ∈ marked

theorem Ready.mono {marked marked' : Set α} (h : marked ⊆ marked') {a : α}
    (hready : Ready premises marked a) : Ready premises marked' a := by
  obtain ⟨ps, hps, hall⟩ := hready
  exact ⟨ps, hps, fun p hp => h (hall p hp)⟩

theorem Ready.derivable {marked : Set α} (h : ∀ a ∈ marked, Derivable premises a) {a : α}
    (hready : Ready premises marked a) : Derivable premises a := by
  obtain ⟨ps, hps, hall⟩ := hready
  have hpremise : ∀ p, Premise premises p a → Derivable premises p := by
    rintro p ⟨ps', hps', hp⟩
    rw [hps] at hps'
    cases hps'
    exact h p (hall p hp)
  constructor
  · exact Acc.intro a fun p hp => (hpremise p hp).1
  · intro b hb
    cases hb.cases_tail with
    | inl hsame =>
        rw [← hsame, hps]
        rfl
    | inr hstep =>
        obtain ⟨p, hbp, hpa⟩ := hstep
        exact (hpremise p hpa).2 b hbp

theorem Derivable.mem {marked : Set α} (h : ∀ a, Ready premises marked a → a ∈ marked) {a : α}
    (hderivable : Derivable premises a) : a ∈ marked := by
  obtain ⟨hacc, hsome⟩ := hderivable
  induction hacc with
  | intro a _ ih =>
      obtain ⟨ps, hps⟩ := Option.isSome_iff_exists.mp (hsome a Relation.ReflTransGen.refl)
      apply h a
      refine ⟨ps, hps, fun p hp => ?_⟩
      have hpremise : Premise premises p a := ⟨ps, hps, hp⟩
      exact ih p hpremise fun b hb => hsome b (hb.tail hpremise)

theorem Derivable.mono {premises' : α → Option (List α)}
    (h : ∀ a ps, premises a = some ps → premises' a = some ps) {a : α}
    (hderivable : Derivable premises a) : Derivable premises' a := by
  have hclosed : ∀ b, Ready premises {a | Derivable premises' a} b →
      b ∈ {a | Derivable premises' a} := by
    rintro b ⟨ps, hps, hall⟩
    exact Ready.derivable (fun _ hp => hp) ⟨ps, h b ps hps, hall⟩
  exact hderivable.mem hclosed

/-! ## Marking -/

open Classical in
noncomputable def mark (premises : α → Option (List α)) (marked : Set α) (a : α) : Set α :=
  if Ready premises marked a then insert a marked else marked

theorem subset_mark (marked : Set α) (a : α) : marked ⊆ mark premises marked a := by
  unfold mark
  split
  · exact Set.subset_insert a marked
  · exact Set.Subset.rfl

theorem mem_mark_of_ready {marked : Set α} {a : α} (h : Ready premises marked a) :
    a ∈ mark premises marked a := by
  unfold mark
  rw [if_pos h]
  exact Set.mem_insert a marked

theorem mem_mark {marked : Set α} {a b : α} (h : b ∈ mark premises marked a) :
    b ∈ marked ∨ b = a ∧ Ready premises marked a := by
  unfold mark at h
  split at h
  · rename_i hready
    cases Set.mem_insert_iff.mp h with
    | inl hsame => exact Or.inr ⟨hsame, hready⟩
    | inr hmem => exact Or.inl hmem
  · exact Or.inl h

noncomputable def sweep (premises : α → Option (List α)) (order : List α) (marked : Set α) :
    Set α :=
  Run.run (mark premises) marked order

theorem subset_sweep (premises : α → Option (List α)) (order : List α) (marked : Set α) :
    marked ⊆ sweep premises order marked := by
  induction order generalizing marked with
  | nil => exact Set.Subset.rfl
  | cons a order ih => exact (subset_mark marked a).trans (ih (mark premises marked a))

theorem sweep_derivable (order : List α) {marked : Set α}
    (h : ∀ a ∈ marked, Derivable premises a) :
    ∀ a ∈ sweep premises order marked, Derivable premises a := by
  induction order generalizing marked with
  | nil => exact h
  | cons a order ih =>
      apply ih
      intro b hb
      cases mem_mark hb with
      | inl hmem => exact h b hmem
      | inr hready =>
          rw [hready.1]
          exact hready.2.derivable h

theorem mem_sweep_of_ready {order : List α} {marked : Set α} {a : α} (ha : a ∈ order)
    (h : Ready premises marked a) : a ∈ sweep premises order marked := by
  induction order generalizing marked with
  | nil => cases ha
  | cons b order ih =>
      by_cases hsame : a = b
      · subst b
        exact subset_sweep premises order _ (mem_mark_of_ready h)
      · have hrest := (List.mem_cons.mp ha).resolve_left hsame
        exact ih hrest (h.mono (subset_mark marked b))

theorem mem_sweep {order : List α} {marked : Set α} {a : α}
    (h : a ∈ sweep premises order marked) : a ∈ marked ∨ (premises a).isSome := by
  induction order generalizing marked with
  | nil => exact Or.inl h
  | cons b order ih =>
      cases ih h with
      | inr hsome => exact Or.inr hsome
      | inl hmem =>
          cases mem_mark hmem with
          | inl hbefore => exact Or.inl hbefore
          | inr hready =>
              obtain ⟨hsame, ps, hps, -⟩ := hready
              subst b
              rw [hps]
              exact Or.inr rfl

/-! ## Sweeping until nothing is left -/

section Sweeps

variable {domain order : List α}

open Classical in
noncomputable def missing (domain : List α) (marked : Set α) : Nat :=
  domain.countP fun a => a ∉ marked

open Classical in
theorem missing_sweep_lt (hdomain : ∀ a, (premises a).isSome → a ∈ domain) {marked : Set α}
    (h : sweep premises order marked ≠ marked) :
    missing domain (sweep premises order marked) < missing domain marked := by
  have hsubset := subset_sweep premises order marked
  obtain ⟨a, ha, hnew⟩ := Set.exists_of_ssubset (hsubset.ssubset_of_ne h.symm)
  have hmem := hdomain a ((mem_sweep ha).resolve_left hnew)
  obtain ⟨front, back, hsplit⟩ := List.append_of_mem hmem
  have hle : ∀ part : List α,
      part.countP (fun b => b ∉ sweep premises order marked) ≤
        part.countP fun b => b ∉ marked := by
    intro part
    apply List.countP_mono_left
    intro b _ hb
    exact decide_eq_true fun hmarked => of_decide_eq_true hb (hsubset hmarked)
  have hfront := hle front
  have hback := hle back
  unfold missing
  rw [hsplit]
  simp only [List.countP_append, List.countP_cons, ha, hnew, not_true_eq_false,
    not_false_eq_true, decide_false, decide_true, Bool.false_eq_true, if_false, if_true]
  omega

theorem sweep_iterate_of_eq {marked : Set α} (h : sweep premises order marked = marked)
    (n : Nat) : (sweep premises order)^[n] marked = marked :=
  Function.iterate_fixed h n

/-- With as many sweeps as there are elements nothing that is ready is left. -/
theorem sweep_iterate_fixed (hdomain : ∀ a, (premises a).isSome → a ∈ domain)
    {marked : Set α} {n : Nat} (hn : missing domain marked ≤ n) :
    sweep premises order ((sweep premises order)^[n] marked) =
      (sweep premises order)^[n] marked := by
  induction n generalizing marked with
  | zero =>
      by_contra hchanged
      have hlt := missing_sweep_lt hdomain hchanged
      rw [Function.iterate_zero_apply] at hlt
      omega
  | succ n ih =>
      by_cases hsame : sweep premises order marked = marked
      · rw [sweep_iterate_of_eq hsame, hsame]
      · have hlt := missing_sweep_lt hdomain hsame
        rw [Function.iterate_succ_apply]
        apply ih
        omega

theorem sweeps_derivable {marked : Set α} (h : ∀ a ∈ marked, Derivable premises a) (n : Nat) :
    ∀ a ∈ (sweep premises order)^[n] marked, Derivable premises a := by
  induction n generalizing marked with
  | zero => exact h
  | succ n ih =>
      rw [Function.iterate_succ_apply]
      exact ih (sweep_derivable order h)

/-- Whatever the order, the sweeps mark what can be derived. -/
theorem mem_sweeps_iff (hdomain : ∀ a, (premises a).isSome → a ∈ domain)
    (horder : domain ⊆ order) {marked : Set α} (h : ∀ a ∈ marked, Derivable premises a)
    {n : Nat} (hn : domain.length ≤ n) (a : α) :
    a ∈ (sweep premises order)^[n] marked ↔ Derivable premises a := by
  constructor
  · exact sweeps_derivable h n a
  · intro hderivable
    apply hderivable.mem
    intro b hready
    have hmem : b ∈ order := by
      obtain ⟨ps, hps, -⟩ := hready
      exact horder (hdomain b (by rw [hps]; rfl))
    have hmissing : missing domain marked ≤ n := (List.countP_le_length).trans hn
    rw [← sweep_iterate_fixed hdomain hmissing]
    exact mem_sweep_of_ready hmem hready

end Sweeps

end ComputeKernel.Lib.Closure
