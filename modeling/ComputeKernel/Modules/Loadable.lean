import ComputeKernel.Lib.Closure
import ComputeKernel.Modules.Symbols

/-!
# Which modules can be loaded

A load refuses a module whose dependencies are not loaded, so the order of the loads
matters.  Repeated over all the modules, in any order, they load exactly those below which no
dependency is missing or circular.
-/

namespace ComputeKernel.Modules.ModuleLoader

open Lib Lib.Closure

def dependenciesOf (s : ModuleLoader) (name : Str) : Option (List Str) :=
  (s.available.get? name).map KernelModule.dependencies

/-- No chain of dependencies below the module is circular or misses a module. -/
def Loadable (s : ModuleLoader) (name : Str) : Prop :=
  Derivable s.dependenciesOf name

def loadAll (names : List Str) (s : ModuleLoader) : ModuleLoader :=
  Run.run (fun s name => (s.load name).2) s names

/-! ## A load marks a module -/

structure Marked (premises : Str → Option (List Str)) (loaded : Set Str) (s : ModuleLoader) :
    Prop where
  enabled : s.modulesEnabled = true
  deps : s.dependenciesOf = premises
  mem : ∀ name, s.Loaded name ↔ name ∈ loaded

section Marked

variable {s : ModuleLoader} {premises : Str → Option (List Str)} {loaded : Set Str}

theorem marked_self (henabled : s.modulesEnabled = true) :
    Marked s.dependenciesOf {name | s.Loaded name} s where
  enabled := henabled
  deps := rfl
  mem _ := Iff.rfl

theorem dependenciesOf_switchedOn {name : Str} {mod : KernelModule}
    (hget : s.available.get? name = some mod) :
    (s.switchedOn name mod).dependenciesOf = s.dependenciesOf := by
  funext other
  unfold dependenciesOf
  rw [get?_switchedOn]
  split
  · rename_i hsame
    rw [hsame, hget]
    rfl
  · rfl

theorem load_of_not_loaded (henabled : s.modulesEnabled = true) {name : Str}
    (h : ¬ (s.load name).2.Loaded name) : ¬ Ready s.dependenciesOf {dep | s.Loaded dep} name := by
  rintro ⟨deps, hdeps, hall⟩
  obtain ⟨mod, hget, rfl⟩ := Option.map_eq_some_iff.mp hdeps
  apply h
  unfold load
  rw [if_neg (not_not.mpr henabled), hget]
  dsimp only
  split
  · rename_i hloaded
    exact ⟨mod, hget, hloaded⟩
  · split
    · rename_i hmissing
      obtain ⟨dep, hdep, hnot⟩ := hmissing
      exact (hnot (hall dep hdep)).elim
    · exact loaded_switchedOn.mpr (Or.inl rfl)

theorem Marked.load (h : Marked premises loaded s) (name : Str) :
    Marked premises (mark premises loaded name) (s.load name).2 := by
  have hloaded : {dep | s.Loaded dep} = loaded := Set.ext h.mem
  cases s.load_cases name with
  | inl hsame =>
      rw [hsame.1]
      refine ⟨h.enabled, h.deps, fun other => ?_⟩
      rw [h.mem]
      constructor
      · exact fun hother => subset_mark loaded name hother
      · intro hother
        cases mem_mark hother with
        | inl hmem => exact hmem
        | inr hready =>
            obtain ⟨rfl, hready⟩ := hready
            by_contra hnot
            refine load_of_not_loaded h.enabled ?_ (h.deps ▸ hloaded ▸ hready)
            rwa [hsame.1, h.mem]
  | inr hload =>
      obtain ⟨mod, hget, -, hdeps, hload⟩ := hload
      have hready : Ready premises loaded name := by
        rw [← h.deps]
        refine ⟨mod.dependencies, ?_, fun dep hdep => (h.mem dep).mp (hdeps dep hdep)⟩
        unfold dependenciesOf
        rw [hget]
        rfl
      rw [hload]
      refine ⟨h.enabled, (dependenciesOf_switchedOn hget).trans h.deps, fun other => ?_⟩
      rw [loaded_switchedOn, h.mem, mark, if_pos hready, Set.mem_insert_iff]

theorem Marked.loadAll (h : Marked premises loaded s) (names : List Str) :
    Marked premises (sweep premises names loaded) (s.loadAll names) := by
  induction names generalizing s loaded with
  | nil => exact h
  | cons name names ih => exact ih (h.load name)

theorem Marked.iterate (h : Marked premises loaded s) (names : List Str) (n : Nat) :
    Marked premises ((sweep premises names)^[n] loaded)
      ((ModuleLoader.loadAll names)^[n] s) := by
  induction n generalizing s loaded with
  | zero => exact h
  | succ n ih =>
      rw [Function.iterate_succ_apply, Function.iterate_succ_apply]
      exact ih (h.loadAll names)

end Marked

/-! ## What is loaded is loadable -/

theorem loadable_register {s : ModuleLoader} {module : KernelModule}
    (hname : module.name ∉ s.available) {name : Str} (h : s.Loadable name) :
    (s.register module).Loadable name := by
  apply h.mono
  intro other deps hdeps
  obtain ⟨mod, hget, rfl⟩ := Option.map_eq_some_iff.mp hdeps
  have hne : other ≠ module.name := fun hsame => hname (hsame ▸ Dict.mem_of_get? hget)
  unfold dependenciesOf
  rw [get?_register, if_neg hne, hget]
  rfl

theorem dependenciesOf_unload (s : ModuleLoader) (name : Str) :
    (s.unload name).2.dependenciesOf = s.dependenciesOf := by
  cases s.unload_cases name with
  | inl hsame => rw [hsame.1]
  | inr hunload =>
      obtain ⟨mod, hget, -, -, hunload⟩ := hunload
      rw [hunload]
      funext other
      unfold dependenciesOf
      rw [get?_switchedOff]
      split
      · rename_i hsame
        rw [hsame, hget]
        rfl
      · rfl

theorem modulesEnabled_unload (s : ModuleLoader) (name : Str) :
    (s.unload name).2.modulesEnabled = s.modulesEnabled := by
  cases s.unload_cases name with
  | inl hsame => rw [hsame.1]
  | inr hunload =>
      obtain ⟨mod, -, -, -, hunload⟩ := hunload
      rw [hunload]
      rfl

theorem loaded_of_loaded_unload {s : ModuleLoader} {name other : Str}
    (h : (s.unload name).2.Loaded other) : s.Loaded other := by
  cases s.unload_cases name with
  | inl hsame =>
      rw [hsame.1] at h
      exact h
  | inr hunload =>
      obtain ⟨mod, -, -, -, hunload⟩ := hunload
      rw [hunload] at h
      exact (loaded_switchedOff.mp h).2

def Grounded (s : ModuleLoader) : Prop :=
  s.modulesEnabled = true ∧ ∀ name, s.Loaded name → s.Loadable name

theorem Grounded.load {s : ModuleLoader} (h : s.Grounded) (name : Str) :
    (s.load name).2.Grounded := by
  have hmarked := (marked_self h.1).load name
  refine ⟨hmarked.enabled, fun other hother => ?_⟩
  unfold Loadable
  rw [hmarked.deps]
  have hmem := (hmarked.mem other).mp hother
  exact sweep_derivable [name] h.2 other hmem

theorem grounded_step (s : ModuleLoader) (op : Op) (h : s.Grounded) (hfresh : s.Fresh op) :
    (s.step op).Grounded := by
  cases op with
  | register module =>
      refine ⟨h.1, fun name hname => ?_⟩
      exact loadable_register hfresh.1 (h.2 name ((loaded_register hfresh).mp hname))
  | load name => exact h.load name
  | unload name =>
      constructor
      · exact (modulesEnabled_unload s name).trans h.1
      · intro other hother
        unfold Loadable
        rw [show (s.step (.unload name)).dependenciesOf = s.dependenciesOf from
          dependenciesOf_unload s name]
        exact h.2 other (loaded_of_loaded_unload hother)

theorem grounded_run {ops : List Op} (hfresh : Run.Guarded step Fresh (init true) ops) :
    (Run.run step (init true) ops).Grounded := by
  apply Run.run_of_guarded grounded_step ?_ hfresh
  refine ⟨rfl, fun name hname => ?_⟩
  obtain ⟨mod, hget, -⟩ := hname
  cases hget

/-- After any calls no loads whatever load a module below which a dependency is missing or
circular; and all the others are loaded once the loads of all the modules, in any order, are
repeated as often as there are modules. -/
theorem loaded_iff_loadable {ops : List Op}
    (hfresh : Run.Guarded step Fresh (init true) ops) :
    let s := Run.run step (init true) ops
    (∀ names name, (s.loadAll names).Loaded name → s.Loadable name) ∧
    ∀ names, s.available.keys ⊆ names → ∀ n, s.available.keys.length ≤ n →
      ∀ name, ((loadAll names)^[n] s).Loaded name ↔ s.Loadable name := by
  intro s
  have hgrounded : s.Grounded := grounded_run hfresh
  have hmarked := marked_self hgrounded.1
  constructor
  · intro names name hname
    exact sweep_derivable _ hgrounded.2 name (((hmarked.loadAll names).mem name).mp hname)
  · intro names hnames n hn name
    rw [(hmarked.iterate names n).mem]
    refine mem_sweeps_iff (fun other hother => ?_) hnames hgrounded.2 hn name
    obtain ⟨deps, hdeps⟩ := Option.isSome_iff_exists.mp hother
    obtain ⟨mod, hget, -⟩ := Option.map_eq_some_iff.mp hdeps
    exact Dict.mem_iff_keys.mp (Dict.mem_of_get? hget)

/-- Modules that are loaded in the wrong order, one that misses a dependency, and two that
depend on each other. -/
theorem loaded_iff_loadable_disk :
    let calls : List Op :=
      [.register ⟨"fs".toList, ["disk".toList], [], false⟩,
        .register ⟨"disk".toList, ["ata".toList], [], false⟩,
        .register ⟨"ata".toList, [], [], false⟩,
        .register ⟨"net".toList, ["pci".toList], [], false⟩,
        .register ⟨"a".toList, ["b".toList], [], false⟩,
        .register ⟨"b".toList, ["a".toList], [], false⟩]
    let s := Run.run step (init true) calls
    s.Loadable "fs".toList ∧ ¬ s.Loadable "net".toList ∧ ¬ s.Loadable "a".toList := by
  intro calls s
  have hfresh : Run.Guarded step Fresh (init true) calls := by decide
  have hiff := (loaded_iff_loadable hfresh).2 s.available.keys (List.Subset.refl _) 6 (by decide)
  rw [← hiff, ← hiff, ← hiff]
  decide +kernel

end ComputeKernel.Modules.ModuleLoader
