import ComputeKernel.Modules.Symbols

/-!
# Unloading in reverse order

A module is loaded after its dependencies, and these stay loaded as long as it is.  So in
the order of loading no module depends on a later one, and from the back of that order
every module can be unloaded.
-/

namespace ComputeKernel.Modules

open Lib

/-- A loader, and the names that were loaded, in the order of their last load. -/
structure LoadOrder where
  loader : ModuleLoader
  loads : List Str

namespace LoadOrder

open ModuleLoader

def start (modulesEnabled : Bool) : LoadOrder :=
  ⟨ModuleLoader.init modulesEnabled, []⟩

def step (counts : ModuleLoader → Str → Bool) (s : LoadOrder) (op : Op) : LoadOrder where
  loader := s.loader.step op
  loads :=
    match op with
    | .load name =>
        if counts s.loader name then (s.loads.filter fun other => other ≠ name) ++ [name]
        else s.loads
    | _ => s.loads

/-- The load returns `True`, also when the module is loaded already. -/
def returnsTrue (s : ModuleLoader) (name : Str) : Bool :=
  (s.load name).1

def takesEffect (s : ModuleLoader) (name : Str) : Bool :=
  (s.load name).1 && ¬ s.Loaded name

def unloadOrder (s : LoadOrder) : List Str :=
  (s.loads.filter fun name => s.loader.Loaded name).reverse

def unloadAll (s : ModuleLoader) : List Str → Bool × ModuleLoader
  | [] => (true, s)
  | name :: names =>
      if (s.unload name).1 then unloadAll (s.unload name).2 names
      else (false, (s.unload name).2)

/-! ## Orders in which no module depends on a later one -/

/-- The loaded modules, each of them behind its dependencies. -/
structure Ordered (s : ModuleLoader) (order : List Str) : Prop where
  nodup : order.Nodup
  mem : ∀ name, name ∈ order ↔ s.Loaded name
  before : order.Pairwise fun earlier later =>
    ∀ mod, s.available.get? earlier = some mod → later ∉ mod.dependencies

theorem Ordered.not_needed {s : ModuleLoader} (h : Sound s) {front : List Str} {name : Str}
    (hordered : Ordered s (front ++ [name])) : ¬ s.Needed name := by
  rintro ⟨other, mod, hget, hloaded, hdep⟩
  have hmem : other ∈ front ++ [name] := (hordered.mem other).mpr ⟨mod, hget, hloaded⟩
  rcases List.mem_append.mp hmem with hfront | hlast
  · have hbefore := (List.pairwise_append.mp hordered.before).2.2
    exact hbefore other hfront name List.mem_cons_self mod hget hdep
  · rw [List.mem_singleton.mp hlast] at hget
    exact h.irrefl hget hloaded hdep

theorem Ordered.switchedOff {s : ModuleLoader} {front : List Str} {name : Str}
    {mod : KernelModule} (hget : s.available.get? name = some mod)
    (hordered : Ordered s (front ++ [name])) : Ordered (s.switchedOff name mod) front := by
  have hapart := (List.nodup_append.mp hordered.nodup).2.2
  refine ⟨(List.nodup_append.mp hordered.nodup).1, fun other => ?_, ?_⟩
  · rw [loaded_switchedOff, ← hordered.mem, List.mem_append, List.mem_singleton]
    constructor
    · intro hother
      exact ⟨hapart other hother name List.mem_cons_self, Or.inl hother⟩
    · rintro ⟨hne, hother | hsame⟩
      · exact hother
      · exact (hne hsame).elim
  · apply (List.pairwise_append.mp hordered.before).1.imp
    intro earlier later hbefore omod hother
    rw [get?_switchedOff] at hother
    split at hother
    · rename_i hsame
      cases hother
      exact hbefore mod (hsame ▸ hget)
    · exact hbefore omod hother

theorem unloadAll_of_ordered {s : ModuleLoader} (h : Sound s) {order : List Str}
    (hordered : Ordered s order) :
    (unloadAll s order.reverse).1 = true ∧ (unloadAll s order.reverse).2.listLoaded = [] := by
  induction order using List.reverseRecOn generalizing s with
  | nil =>
      refine ⟨rfl, List.filter_eq_nil_iff.mpr fun mod hmod hloaded => ?_⟩
      obtain ⟨name, hget⟩ := Dict.mem_values.mp hmod
      exact List.not_mem_nil ((hordered.mem name).mpr ⟨mod, hget, hloaded⟩)
  | append_singleton front name ih =>
      have hneeded := hordered.not_needed h
      have hloaded : s.Loaded name := (hordered.mem name).mp (by simp)
      rw [List.reverse_concat, unloadAll]
      rcases s.unload_cases name with ⟨-, hrefused⟩ | ⟨mod, hget, -, -, hunload⟩
      · exact (hneeded (hrefused hloaded)).elim
      · simp only [hunload, if_true]
        exact ih (h.switchedOff hget hneeded) (hordered.switchedOff hget)

theorem exists_not_needed {s : ModuleLoader} (h : Sound s) {order : List Str}
    (hordered : Ordered s order) {names : Set Str} (hnames : names.Nonempty)
    (hloaded : ∀ name ∈ names, s.Loaded name) :
    ∃ name ∈ names, ∀ other ∈ names, ∀ mod, s.available.get? other = some mod →
      name ∉ mod.dependencies := by
  classical
  obtain ⟨first, hfirst⟩ := hnames
  have hmem : first ∈ order.filter (· ∈ names) := by
    simp [hfirst, (hordered.mem first).mpr (hloaded first hfirst)]
  -- the last of the set in the order
  obtain ⟨front, last, hsplit⟩ :=
    (List.eq_nil_or_concat' (order.filter (· ∈ names))).resolve_left (List.ne_nil_of_mem hmem)
  have hlast : last ∈ order.filter (· ∈ names) := by simp [hsplit]
  have hbefore : (front ++ [last]).Pairwise _ := hsplit ▸ hordered.before.filter (· ∈ names)
  refine ⟨last, by simpa using (List.mem_filter.mp hlast).2, fun other hother mod hget => ?_⟩
  have hmem : other ∈ front ++ [last] := by
    rw [← hsplit]
    simp [hother, (hordered.mem other).mpr (hloaded other hother)]
  rcases List.mem_append.mp hmem with hfront | hsame
  · exact (List.pairwise_append.mp hbefore).2.2 other hfront last List.mem_cons_self mod hget
  · obtain rfl := List.mem_singleton.mp hsame
    obtain ⟨mod', hget', hloaded'⟩ := hloaded other hother
    rw [hget] at hget'
    cases hget'
    exact h.irrefl hget hloaded'

/-! ## The order of loading is one -/

/-- Loaded modules are recorded, and none that is recorded before another depends on it. -/
structure Recorded (s : LoadOrder) : Prop where
  nodup : s.loads.Nodup
  mem : ∀ name, s.loader.Loaded name → name ∈ s.loads
  before : s.loads.Pairwise fun earlier later => s.loader.Loaded later →
    ∀ mod, s.loader.available.get? earlier = some mod → mod.isLoaded →
      later ∉ mod.dependencies

theorem Recorded.ordered {s : LoadOrder} (h : Recorded s) :
    Ordered s.loader (s.loads.filter fun name => s.loader.Loaded name) := by
  refine ⟨h.nodup.filter _, fun name => ?_, ?_⟩
  · simp only [List.mem_filter, decide_eq_true_eq]
    exact and_iff_right_of_imp (h.mem name)
  · have hall := h.before.filter fun name => decide (s.loader.Loaded name)
    refine hall.imp_of_mem fun {earlier later} hearlier hlater hbefore mod hget => ?_
    have hloaded : s.loader.Loaded earlier := by simpa using (List.mem_filter.mp hearlier).2
    obtain ⟨mod', hget', hmod⟩ := hloaded
    rw [hget] at hget'
    cases hget'
    exact hbefore (by simpa using (List.mem_filter.mp hlater).2) mod hget hmod

theorem step_load_cases (s : LoadOrder) (name : Str) :
    s.step takesEffect (.load name) = s ∨
      ∃ mod, ¬ s.loader.Loaded name ∧
        s.step takesEffect (.load name) =
          ⟨s.loader.switchedOn name mod,
            (s.loads.filter fun other => other ≠ name) ++ [name]⟩ := by
  rcases s.loader.load_cases name with
    ⟨hsame, hreturns⟩ | ⟨mod, hget, hunloaded, -, hload⟩
  · left
    have hcounts : takesEffect s.loader name = false := by
      unfold takesEffect
      cases hresult : (s.loader.load name).1 with
      | false => rfl
      | true => simp [hreturns hresult]
    change LoadOrder.mk (s.loader.load name).2 (if _ then _ else _) = s
    rw [hsame, hcounts, if_neg Bool.false_ne_true]
  · right
    have hnot : ¬ s.loader.Loaded name := by
      rintro ⟨mod', hget', hloaded⟩
      rw [hget] at hget'
      cases hget'
      rw [hunloaded] at hloaded
      cases hloaded
    have hcounts : takesEffect s.loader name = true := by
      unfold takesEffect
      simp [hload, hnot]
    refine ⟨mod, hnot, ?_⟩
    change LoadOrder.mk (s.loader.load name).2 (if _ then _ else _) = _
    rw [hload, hcounts, if_pos rfl]

theorem step_unload_cases (s : LoadOrder) (name : Str) :
    s.step takesEffect (.unload name) = s ∨
      ∃ mod, s.step takesEffect (.unload name) =
        ⟨s.loader.switchedOff name mod, s.loads⟩ := by
  have hstep : s.step takesEffect (.unload name) = ⟨(s.loader.unload name).2, s.loads⟩ := rfl
  rw [hstep]
  rcases s.loader.unload_cases name with ⟨hsame, -⟩ | ⟨mod, -, -, -, hunload⟩
  · left
    rw [hsame]
  · right
    exact ⟨mod, by rw [hunload]⟩

theorem Recorded.register {s : LoadOrder} (h : Recorded s) {module : KernelModule}
    (hfresh : s.loader.Fresh (.register module)) :
    Recorded ⟨s.loader.register module, s.loads⟩ := by
  refine ⟨h.nodup, fun name hname => h.mem name ((loaded_register hfresh).mp hname), ?_⟩
  apply h.before.imp
  intro earlier later hbefore hlater mod hget hloaded
  refine hbefore ((loaded_register hfresh).mp hlater) mod ?_ hloaded
  change (s.loader.register module).available.get? earlier = some mod at hget
  rw [get?_register] at hget
  split at hget
  · cases hget
    rw [hfresh.2] at hloaded
    cases hloaded
  · exact hget

/-- A module is loaded behind its dependencies, and nothing that is loaded needs it. -/
theorem Recorded.switchedOn {s : LoadOrder} (h : Recorded s) (hsound : Sound s.loader)
    {name : Str} {mod : KernelModule} (hnot : ¬ s.loader.Loaded name) :
    Recorded ⟨s.loader.switchedOn name mod,
      (s.loads.filter fun other => other ≠ name) ++ [name]⟩ := by
  have hne : ∀ {other}, other ∈ s.loads.filter (fun other => other ≠ name) →
      other ≠ name := by
    intro other hother
    simpa using (List.mem_filter.mp hother).2
  have hold : ∀ {earlier omod}, earlier ≠ name →
      (s.loader.switchedOn name mod).available.get? earlier = some omod →
      s.loader.available.get? earlier = some omod := by
    intro earlier omod hother hget
    rwa [get?_switchedOn, if_neg hother] at hget
  refine ⟨?_, fun other hother => ?_, ?_⟩
  · rw [List.nodup_append]
    refine ⟨h.nodup.filter _, List.nodup_singleton name, fun other hother last hlast => ?_⟩
    rw [List.mem_singleton.mp hlast]
    exact hne hother
  · change other ∈ (s.loads.filter fun other => other ≠ name) ++ [name]
    by_cases hsame : other = name
    · simp [hsame]
    · have hmem := h.mem other ((loaded_switchedOn.mp hother).resolve_left hsame)
      simp [hsame, hmem]
  · rw [List.pairwise_append]
    refine ⟨?_, List.pairwise_singleton _ name, ?_⟩
    · refine (h.before.filter _).imp_of_mem
        fun {earlier later} hearlier hlater hbefore hloaded omod hother => ?_
      exact hbefore ((loaded_switchedOn.mp hloaded).resolve_left (hne hlater)) omod
        (hold (hne hearlier) hother)
    · intro earlier hearlier later hlater _ omod hother hloaded hdep
      obtain rfl := List.mem_singleton.mp hlater
      -- what was loaded before had its dependencies loaded
      exact hnot (hsound.deps (hold (hne hearlier) hother) hloaded later hdep)

theorem Recorded.switchedOff {s : LoadOrder} (h : Recorded s) (name : Str)
    (mod : KernelModule) : Recorded ⟨s.loader.switchedOff name mod, s.loads⟩ := by
  refine ⟨h.nodup, fun other hother => h.mem other (loaded_switchedOff.mp hother).2, ?_⟩
  apply h.before.imp
  intro earlier later hbefore hlater omod hother hloaded
  refine hbefore (loaded_switchedOff.mp hlater).2 omod ?_ hloaded
  change (s.loader.switchedOff name mod).available.get? earlier = some omod at hother
  rw [get?_switchedOff] at hother
  split at hother
  · cases hother
    cases hloaded
  · exact hother

theorem recorded_step (s : LoadOrder) (op : Op) (hsound : Sound s.loader) (h : Recorded s)
    (hfresh : s.loader.Fresh op) : Recorded (s.step takesEffect op) := by
  cases op with
  | register module => exact h.register hfresh
  | load name =>
      rcases s.step_load_cases name with hsame | ⟨mod, hnot, hload⟩
      · rw [hsame]
        exact h
      · rw [hload]
        exact h.switchedOn hsound hnot
  | unload name =>
      rcases s.step_unload_cases name with hsame | ⟨mod, hunload⟩
      · rw [hsame]
        exact h
      · rw [hunload]
        exact h.switchedOff name mod

theorem recorded_start (modulesEnabled : Bool) : Recorded (start modulesEnabled) where
  nodup := List.nodup_nil
  mem _ h := nomatch h
  before := List.Pairwise.nil

/-- A load that returns `True` need not load anything: a dependency that is loaded a second
time comes after the module that depends on it, and cannot be unloaded first. -/
theorem second_load_counts :
    let calls : List Op :=
      [.register ⟨"ata".toList, [], [], false⟩,
        .register ⟨"disk".toList, ["ata".toList], [], false⟩,
        .load "ata".toList, .load "disk".toList, .load "ata".toList]
    let s := Run.run (step returnsTrue) (start true) calls
    Run.Guarded ModuleLoader.step Fresh (ModuleLoader.init true) calls ∧
    s.unloadOrder = ["ata".toList, "disk".toList] ∧
    (unloadAll s.loader s.unloadOrder).1 = false := by
  decide

/-- After any calls the loaded modules can be unloaded in the reverse of the order in which
they were loaded, until none is left; so none of them keep each other loaded. -/
theorem unload_reverse (modulesEnabled : Bool) {ops : List Op}
    (hfresh : Run.Guarded ModuleLoader.step Fresh (ModuleLoader.init modulesEnabled) ops) :
    let s := Run.run (step takesEffect) (start modulesEnabled) ops
    (unloadAll s.loader s.unloadOrder).1 = true ∧
    (unloadAll s.loader s.unloadOrder).2.listLoaded = [] ∧
    ∀ names : Set Str, names.Nonempty → (∀ name ∈ names, s.loader.Loaded name) →
      ∃ name ∈ names, ∀ other ∈ names, ∀ mod, s.loader.available.get? other = some mod →
        name ∉ mod.dependencies := by
  intro s
  have hguarded : Run.Guarded (step takesEffect) (fun s op => s.loader.Fresh op)
      (start modulesEnabled) ops :=
    (Run.guarded_map LoadOrder.loader (fun _ _ => rfl) _ _).mpr hfresh
  have hinv : Sound s.loader ∧ Recorded s :=
    Run.run_of_guarded (P := fun s => Sound s.loader ∧ Recorded s)
      (fun s op h hop => ⟨sound_step s.loader op h.1 hop, recorded_step s op h.1 h.2 hop⟩)
      ⟨sound_init modulesEnabled, recorded_start modulesEnabled⟩ hguarded
  have hordered := hinv.2.ordered
  obtain ⟨hall, hnone⟩ := unloadAll_of_ordered hinv.1 hordered
  exact ⟨hall, hnone, fun names hnames hloaded =>
    exists_not_needed hinv.1 hordered hnames hloaded⟩

theorem unload_reverse_disk :
    let calls : List Op :=
      [.register ⟨"ata".toList, [], [], false⟩,
        .register ⟨"disk".toList, ["ata".toList], [], false⟩,
        .load "ata".toList, .load "disk".toList, .load "ata".toList]
    let s := Run.run (step takesEffect) (start true) calls
    s.unloadOrder = ["disk".toList, "ata".toList] ∧
    (unloadAll s.loader s.unloadOrder).1 = true := by
  intro calls s
  have hfresh : Run.Guarded ModuleLoader.step Fresh (ModuleLoader.init true) calls := by decide
  exact ⟨by decide, (unload_reverse true hfresh).1⟩

end LoadOrder

end ComputeKernel.Modules
