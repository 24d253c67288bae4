import ComputeKernel.Modules.ModuleLoader

/-!
# Dependencies and symbols of loaded modules

Loads and unloads keep the loaded modules closed under dependencies, and every entry of the
symbol table names a loaded module that exports the symbol.  An unload removes entries by
symbol name only, also those of a symbol that another loaded module exports.
-/

namespace ComputeKernel.Modules.ModuleLoader

open Lib

/-- Dependencies of loaded modules are loaded, no loaded module depends on itself, and
symbols name loaded modules that export them. -/
structure Sound (s : ModuleLoader) : Prop where
  deps : ∀ {name mod}, s.available.get? name = some mod → mod.isLoaded →
    ∀ dep ∈ mod.dependencies, s.Loaded dep
  irrefl : ∀ {name mod}, s.available.get? name = some mod → mod.isLoaded →
    name ∉ mod.dependencies
  symbols : ∀ {sym name}, s.lookupSymbol sym = some name →
    ∃ mod, s.available.get? name = some mod ∧ mod.isLoaded ∧ sym ∈ mod.exports

theorem sound_init (modulesEnabled : Bool) : Sound (init modulesEnabled) where
  deps h := nomatch h
  irrefl h := nomatch h
  symbols h := nomatch h

namespace Sound

variable {s : ModuleLoader}

theorem register (h : Sound s) {module : KernelModule} (hfresh : s.Fresh (.register module)) :
    Sound (s.register module) := by
  obtain ⟨hname, hunloaded⟩ := hfresh
  -- a loaded module was there before
  have hold : ∀ {name mod}, (s.register module).available.get? name = some mod →
      mod.isLoaded → s.available.get? name = some mod := by
    intro name mod hget hloaded
    rw [get?_register] at hget
    split at hget
    · cases hget
      rw [hunloaded] at hloaded
      cases hloaded
    · exact hget
  constructor
  · intro name mod hget hloaded dep hdep
    rw [loaded_register ⟨hname, hunloaded⟩]
    exact h.deps (hold hget hloaded) hloaded dep hdep
  · intro name mod hget hloaded
    exact h.irrefl (hold hget hloaded) hloaded
  · intro sym name hsym
    obtain ⟨mod, hget, hloaded, hexport⟩ := h.symbols hsym
    refine ⟨mod, ?_, hloaded, hexport⟩
    have hne : name ≠ module.name := fun hsame => hname (hsame ▸ Dict.mem_of_get? hget)
    rw [get?_register, if_neg hne, hget]

theorem switchedOn (h : Sound s) {name : Str} {mod : KernelModule}
    (hget : s.available.get? name = some mod) (hunloaded : mod.isLoaded = false)
    (hdeps : ∀ dep ∈ mod.dependencies, s.Loaded dep) : Sound (s.switchedOn name mod) := by
  have hnot : ¬ s.Loaded name := by
    rintro ⟨other, hother, hloaded⟩
    rw [hget] at hother
    cases hother
    rw [hunloaded] at hloaded
    cases hloaded
  constructor
  · intro other omod hother hloaded dep hdep
    rw [loaded_switchedOn]
    rw [get?_switchedOn] at hother
    split at hother
    · cases hother
      exact Or.inr (hdeps dep hdep)
    · exact Or.inr (h.deps hother hloaded dep hdep)
  · intro other omod hother hloaded
    rw [get?_switchedOn] at hother
    split at hother
    · rename_i hsame
      cases hother
      rw [hsame]
      exact fun hself => hnot (hdeps name hself)
    · exact h.irrefl hother hloaded
  · intro sym other hsym
    rw [lookupSymbol_switchedOn] at hsym
    simp only [get?_switchedOn]
    split at hsym
    · rename_i hexport
      cases hsym
      exact ⟨_, if_pos rfl, rfl, hexport⟩
    · obtain ⟨omod, hother, hloaded, hexport⟩ := h.symbols hsym
      have hne : other ≠ name := by
        rintro rfl
        exact hnot ⟨omod, hother, hloaded⟩
      exact ⟨omod, (if_neg hne).trans hother, hloaded, hexport⟩

theorem switchedOff (h : Sound s) {name : Str} {mod : KernelModule}
    (hget : s.available.get? name = some mod) (hneeded : ¬ s.Needed name) :
    Sound (s.switchedOff name mod) := by
  -- a module loaded after the unload is another one that was loaded before
  have hold : ∀ {other omod}, (s.switchedOff name mod).available.get? other = some omod →
      omod.isLoaded → s.available.get? other = some omod := by
    intro other omod hother hloaded
    rw [get?_switchedOff] at hother
    split at hother
    · cases hother
      cases hloaded
    · exact hother
  constructor
  · intro other omod hother hloaded dep hdep
    have hbefore := hold hother hloaded
    rw [loaded_switchedOff]
    refine ⟨?_, h.deps hbefore hloaded dep hdep⟩
    rintro rfl
    exact hneeded ⟨other, omod, hbefore, hloaded, hdep⟩
  · intro other omod hother hloaded
    exact h.irrefl (hold hother hloaded) hloaded
  · intro sym other hsym
    rw [lookupSymbol_switchedOff] at hsym
    split at hsym
    · cases hsym
    · rename_i hexport
      obtain ⟨omod, hother, hloaded, hotherExport⟩ := h.symbols hsym
      refine ⟨omod, ?_, hloaded, hotherExport⟩
      have hne : other ≠ name := by
        rintro rfl
        rw [hget] at hother
        cases hother
        exact hexport hotherExport
      rw [get?_switchedOff, if_neg hne, hother]

end Sound

theorem sound_step (s : ModuleLoader) (op : Op) (h : Sound s) (hfresh : s.Fresh op) :
    Sound (s.step op) := by
  cases op with
  | register module => exact h.register hfresh
  | load name =>
      change Sound (s.load name).2
      rcases s.load_cases name with ⟨hsame, -⟩ | ⟨mod, hget, hunloaded, hdeps, hload⟩
      · rw [hsame]
        exact h
      · rw [hload]
        exact h.switchedOn hget hunloaded hdeps
  | unload name =>
      change Sound (s.unload name).2
      rcases s.unload_cases name with ⟨hsame, -⟩ | ⟨mod, hget, -, hneeded, hunload⟩
      · rw [hsame]
        exact h
      · rw [hunload]
        exact h.switchedOff hget hneeded

theorem sound_run (modulesEnabled : Bool) {ops : List Op}
    (hfresh : Run.Guarded step Fresh (init modulesEnabled) ops) :
    Sound (Run.run step (init modulesEnabled) ops) :=
  Run.run_of_guarded sound_step (sound_init modulesEnabled) hfresh

/-- After any calls every dependency of a loaded module is loaded, and a symbol that is
found is exported by the loaded module it leads to. -/
theorem loaded_closed (modulesEnabled : Bool) {ops : List Op}
    (hfresh : Run.Guarded step Fresh (init modulesEnabled) ops) :
    let s := Run.run step (init modulesEnabled) ops
    (∀ name mod, s.available.get? name = some mod → mod.isLoaded →
      ∀ dep ∈ mod.dependencies, s.Loaded dep) ∧
    ∀ sym name, s.lookupSymbol sym = some name →
      ∃ mod, s.available.get? name = some mod ∧ mod.isLoaded ∧ sym ∈ mod.exports := by
  intro s
  have h : Sound s := sound_run modulesEnabled hfresh
  exact ⟨fun _ _ => h.deps, fun _ _ => h.symbols⟩

/-- A module loaded with its dependency, and a second exporter of its symbol. -/
theorem loaded_closed_ata :
    let ata : KernelModule := ⟨"ata".toList, [], ["probe".toList], false⟩
    let disk : KernelModule := ⟨"disk".toList, ["ata".toList], ["probe".toList], false⟩
    let s := Run.run step (init true)
      [.register ata, .register disk, .load "disk".toList, .load "ata".toList,
        .load "disk".toList, .unload "ata".toList]
    s.lookupSymbol "probe".toList = some "disk".toList ∧
    ∀ dep ∈ disk.dependencies, s.Loaded dep := by
  intro ata disk s
  have hfresh : Run.Guarded step Fresh (init true)
      [.register ata, .register disk, .load "disk".toList, .load "ata".toList,
        .load "disk".toList, .unload "ata".toList] := by decide
  have hdisk : s.available.get? "disk".toList = some { disk with isLoaded := true } := by decide
  exact ⟨by decide, (loaded_closed true hfresh).1 _ { disk with isLoaded := true } hdisk rfl⟩

/-! ## Symbols of loaded modules -/

def Resolved (s : ModuleLoader) : Prop :=
  ∀ name mod, s.available.get? name = some mod → mod.isLoaded → ∀ sym ∈ mod.exports,
    ∃ owner omod, s.lookupSymbol sym = some owner ∧ s.available.get? owner = some omod ∧
      omod.isLoaded ∧ sym ∈ omod.exports

def SharesNone (s : ModuleLoader) (name : Str) : Prop :=
  ∀ mod, s.available.get? name = some mod → ∀ other omod, other ≠ name →
    s.available.get? other = some omod → omod.isLoaded →
    ∀ sym ∈ omod.exports, sym ∉ mod.exports

def UnloadsOwn (s : ModuleLoader) : Op → Prop
  | .unload name => s.Loaded name → ¬ s.Needed name → s.SharesNone name
  | _ => True

theorem resolved_iff {s : ModuleLoader} (h : Sound s) :
    s.Resolved ↔ ∀ name mod, s.available.get? name = some mod → mod.isLoaded →
      ∀ sym ∈ mod.exports, s.lookupSymbol sym ≠ none := by
  constructor
  · intro hall name mod hget hloaded sym hsym
    obtain ⟨owner, -, howner, -⟩ := hall name mod hget hloaded sym hsym
    rw [howner]
    simp
  · intro hall name mod hget hloaded sym hsym
    obtain ⟨owner, howner⟩ :=
      Option.ne_none_iff_exists'.mp (hall name mod hget hloaded sym hsym)
    obtain ⟨omod, hrest⟩ := h.symbols howner
    exact ⟨owner, omod, howner, hrest⟩

theorem resolved_register {s : ModuleLoader} (hall : s.Resolved) {module : KernelModule}
    (hfresh : s.Fresh (.register module)) : (s.register module).Resolved := by
  intro name mod hget hloaded sym hsym
  rw [get?_register] at hget
  split at hget
  · cases hget
    rw [hfresh.2] at hloaded
    cases hloaded
  · obtain ⟨owner, omod, howner, hother, hrest⟩ := hall name mod hget hloaded sym hsym
    refine ⟨owner, omod, howner, ?_, hrest⟩
    have hne : owner ≠ module.name := fun hsame =>
      hfresh.1 (hsame ▸ Dict.mem_of_get? hother)
    rw [get?_register, if_neg hne, hother]

theorem resolved_switchedOn {s : ModuleLoader} (h : Sound s) (hall : s.Resolved) {name : Str}
    {mod : KernelModule} (hafter : Sound (s.switchedOn name mod)) :
    (s.switchedOn name mod).Resolved := by
  rw [resolved_iff h] at hall
  rw [resolved_iff hafter]
  intro other omod hother hloaded sym hsym
  rw [lookupSymbol_switchedOn]
  rw [get?_switchedOn] at hother
  split
  · simp
  · rename_i hexport
    split at hother
    · cases hother
      exact (hexport hsym).elim
    · exact hall other omod hother hloaded sym hsym

theorem resolved_switchedOff_iff {s : ModuleLoader} (h : Sound s) (hall : s.Resolved)
    {name : Str} {mod : KernelModule} (hget : s.available.get? name = some mod)
    (hneeded : ¬ s.Needed name) : (s.switchedOff name mod).Resolved ↔ s.SharesNone name := by
  rw [resolved_iff h] at hall
  rw [resolved_iff (h.switchedOff hget hneeded)]
  constructor
  · intro hafter mod' hget' other omod hne hother hloaded sym hsym hexport
    rw [hget] at hget'
    cases hget'
    have hother' : (s.switchedOff name mod).available.get? other = some omod := by
      rw [get?_switchedOff, if_neg hne, hother]
    have hsome := hafter other omod hother' hloaded sym hsym
    rw [lookupSymbol_switchedOff, if_pos hexport] at hsome
    exact hsome rfl
  · intro hshares other omod hother hloaded sym hsym
    rw [get?_switchedOff] at hother
    split at hother
    · cases hother
      cases hloaded
    · rename_i hne
      have hexport := hshares mod hget other omod hne hother hloaded sym hsym
      rw [lookupSymbol_switchedOff, if_neg hexport]
      exact hall other omod hother hloaded sym hsym

theorem resolved_step (s : ModuleLoader) (op : Op) (h : Sound s) (hall : s.Resolved)
    (hfresh : s.Fresh op) (hop : s.UnloadsOwn op) : (s.step op).Resolved := by
  cases op with
  | register module => exact resolved_register hall hfresh
  | load name =>
      change (s.load name).2.Resolved
      rcases s.load_cases name with ⟨hsame, -⟩ | ⟨mod, hget, hunloaded, hdeps, hload⟩
      · rw [hsame]
        exact hall
      · rw [hload]
        exact resolved_switchedOn h hall (h.switchedOn hget hunloaded hdeps)
  | unload name =>
      change (s.unload name).2.Resolved
      rcases s.unload_cases name with ⟨hsame, -⟩ | ⟨mod, hget, hloaded, hneeded, hunload⟩
      · rw [hsame]
        exact hall
      · rw [hunload]
        exact (resolved_switchedOff_iff h hall hget hneeded).mpr
          (hop ⟨mod, hget, hloaded⟩ hneeded)

theorem not_resolved_step (s : ModuleLoader) (op : Op) (h : Sound s) (hall : s.Resolved)
    (hop : ¬ s.UnloadsOwn op) : ¬ (s.step op).Resolved := by
  cases op with
  | register module => exact (hop trivial).elim
  | load name => exact (hop trivial).elim
  | unload name =>
      change ¬ (s.unload name).2.Resolved
      intro hafter
      apply hop
      intro hloaded hneeded
      rcases s.unload_cases name with ⟨-, hrefused⟩ | ⟨mod, hget, -, -, hunload⟩
      · exact (hneeded (hrefused hloaded)).elim
      · rw [hunload] at hafter
        exact (resolved_switchedOff_iff h hall hget hneeded).mp hafter

/-- Every exported symbol of a loaded module resolves throughout a run exactly when no
module is unloaded that shares a symbol with another loaded one. -/
theorem always_resolved_iff (modulesEnabled : Bool) {ops : List Op}
    (hfresh : Run.Guarded step Fresh (init modulesEnabled) ops) :
    Run.Always step Resolved (init modulesEnabled) ops ↔
      Run.Guarded step UnloadsOwn (init modulesEnabled) ops :=
  Run.always_iff_guarded_within (fun s op h _ hop _ => sound_step s op h hop)
    (fun s op h hall hop hown => resolved_step s op h hall hop hown)
    (fun s op h hall _ hown => not_resolved_step s op h hall hown)
    (sound_init modulesEnabled) (fun _ _ h => nomatch h) hfresh

/-- Two modules export `probe`; once one is unloaded, the other's symbol is gone. -/
theorem symbol_lost :
    let calls : List Op :=
      [.register ⟨"ata".toList, [], ["probe".toList], false⟩,
        .register ⟨"ahci".toList, [], ["probe".toList], false⟩,
        .load "ata".toList, .load "ahci".toList, .unload "ata".toList]
    let s := Run.run step (init true) calls
    ¬ s.Resolved ∧ s.Loaded "ahci".toList ∧ s.lookupSymbol "probe".toList = none := by
  intro calls s
  have hnone : s.lookupSymbol "probe".toList = none := by decide
  refine ⟨fun hall => ?_, by decide, hnone⟩
  have hahci : s.available.get? "ahci".toList =
      some ⟨"ahci".toList, [], ["probe".toList], true⟩ := by decide
  obtain ⟨owner, -, howner, -⟩ :=
    hall _ _ hahci rfl "probe".toList (List.mem_singleton.mpr rfl)
  rw [hnone] at howner
  cases howner

theorem always_resolved_apart :
    let calls : List Op :=
      [.register ⟨"ata".toList, [], ["probe".toList], false⟩,
        .register ⟨"ahci".toList, [], ["init".toList], false⟩, .load "ata".toList,
        .load "ahci".toList]
    Run.Guarded step Fresh (init true) calls ∧
      Run.Always step Resolved (init true) calls := by
  intro calls
  have hfresh : Run.Guarded step Fresh (init true) calls := by decide
  exact ⟨hfresh, (always_resolved_iff true hfresh).mpr ⟨trivial, trivial, trivial, trivial,
    trivial⟩⟩

end ComputeKernel.Modules.ModuleLoader
