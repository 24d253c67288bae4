import ComputeKernel.Base
import ComputeKernel.Lib.Dict
import ComputeKernel.Lib.Run

/-!
# Kernel module loader

Modules are registered under their names, loaded once their dependencies are, and unloaded
once no loaded module depends on them.  The symbol table gives for each exported symbol the
module that was loaded last with it.
-/

namespace ComputeKernel.Modules

open Lib

structure KernelModule where
  name : Str
  dependencies : List Str
  exports : List Str
  isLoaded : Bool := false
  deriving DecidableEq, Repr

structure ModuleLoader where
  /-- The one field of the profile that is looked at. -/
  modulesEnabled : Bool
  available : Dict Str KernelModule
  symbolTable : Dict Str Str

namespace ModuleLoader

def init (modulesEnabled : Bool) : ModuleLoader :=
  ⟨modulesEnabled, Dict.empty, Dict.empty⟩

def register (s : ModuleLoader) (module : KernelModule) : ModuleLoader :=
  { s with available := s.available.set module.name module }

def Loaded (s : ModuleLoader) (name : Str) : Prop :=
  ∃ mod, s.available.get? name = some mod ∧ mod.isLoaded

instance (s : ModuleLoader) (name : Str) : Decidable (s.Loaded name) :=
  match h : s.available.get? name with
  | none => isFalse fun ⟨_, hmod, _⟩ => nomatch h.symm.trans hmod
  | some mod =>
      if hmod : mod.isLoaded then isTrue ⟨mod, h, hmod⟩
      else isFalse fun ⟨_, hother, hloaded⟩ =>
        hmod (Option.some.inj (h.symm.trans hother) ▸ hloaded)

def load (s : ModuleLoader) (name : Str) : Bool × ModuleLoader :=
  if ¬ s.modulesEnabled then (false, s)
  else
    match s.available.get? name with
    | none => (false, s)
    | some mod =>
        if mod.isLoaded then (true, s)
        else if ∃ dep ∈ mod.dependencies, ¬ s.Loaded dep then (false, s)
        else
          (true,
            { s with
              available := s.available.set name { mod with isLoaded := true }
              symbolTable :=
                mod.exports.foldl (fun table sym => table.set sym name) s.symbolTable })

def unload (s : ModuleLoader) (name : Str) : Bool × ModuleLoader :=
  match s.available.get? name with
  | none => (false, s)
  | some mod =>
      if ¬ mod.isLoaded then (false, s)
      else if s.available.values.any fun other =>
          other.isLoaded && other.dependencies.contains name then (false, s)
      else
        (true,
          { s with
            available := s.available.set name { mod with isLoaded := false }
            symbolTable := mod.exports.foldl Dict.erase s.symbolTable })

def listLoaded (s : ModuleLoader) : List KernelModule :=
  s.available.values.filter KernelModule.isLoaded

def lookupSymbol (s : ModuleLoader) (symbol : Str) : Option Str :=
  s.symbolTable.get? symbol

/-! ## What the calls do -/

def Needed (s : ModuleLoader) (name : Str) : Prop :=
  ∃ other mod, s.available.get? other = some mod ∧ mod.isLoaded ∧ name ∈ mod.dependencies

theorem needed_iff (s : ModuleLoader) (name : Str) :
    (s.available.values.any fun other =>
      other.isLoaded && other.dependencies.contains name) = true ↔ s.Needed name := by
  unfold Needed
  simp only [List.any_eq_true, Dict.mem_values, Bool.and_eq_true, List.contains_iff_mem]
  constructor
  · rintro ⟨mod, ⟨other, hget⟩, hmod⟩
    exact ⟨other, mod, hget, hmod⟩
  · rintro ⟨other, mod, hget, hmod⟩
    exact ⟨mod, ⟨other, hget⟩, hmod⟩

def switchedOn (s : ModuleLoader) (name : Str) (mod : KernelModule) : ModuleLoader :=
  { s with
    available := s.available.set name { mod with isLoaded := true }
    symbolTable := mod.exports.foldl (fun table sym => table.set sym name) s.symbolTable }

def switchedOff (s : ModuleLoader) (name : Str) (mod : KernelModule) : ModuleLoader :=
  { s with
    available := s.available.set name { mod with isLoaded := false }
    symbolTable := mod.exports.foldl Dict.erase s.symbolTable }

theorem load_cases (s : ModuleLoader) (name : Str) :
    ((s.load name).2 = s ∧ ((s.load name).1 = true → s.Loaded name)) ∨
      ∃ mod, s.available.get? name = some mod ∧ mod.isLoaded = false ∧
        (∀ dep ∈ mod.dependencies, s.Loaded dep) ∧
        s.load name = (true, s.switchedOn name mod) := by
  have hfalse : false = true → s.Loaded name := fun h => absurd h Bool.false_ne_true
  unfold load
  split
  · exact Or.inl ⟨rfl, hfalse⟩
  · cases hget : s.available.get? name with
    | none => exact Or.inl ⟨rfl, hfalse⟩
    | some mod =>
        dsimp only
        split
        · rename_i hloaded
          exact Or.inl ⟨rfl, fun _ => ⟨mod, hget, hloaded⟩⟩
        · rename_i hloaded
          split
          · exact Or.inl ⟨rfl, hfalse⟩
          · rename_i hdeps
            refine Or.inr ⟨mod, rfl, by simpa using hloaded, fun dep hdep => ?_, rfl⟩
            by_contra hnot
            exact hdeps ⟨dep, hdep, hnot⟩

theorem unload_cases (s : ModuleLoader) (name : Str) :
    (s.unload name = (false, s) ∧ (s.Loaded name → s.Needed name)) ∨
      ∃ mod, s.available.get? name = some mod ∧ mod.isLoaded = true ∧ ¬ s.Needed name ∧
        s.unload name = (true, s.switchedOff name mod) := by
  unfold unload
  cases hget : s.available.get? name with
  | none =>
      refine Or.inl ⟨rfl, ?_⟩
      rintro ⟨mod, hmod, -⟩
      rw [hget] at hmod
      cases hmod
  | some mod =>
      dsimp only
      split
      · rename_i hloaded
        refine Or.inl ⟨rfl, ?_⟩
        rintro ⟨other, hother, hotherLoaded⟩
        rw [hget] at hother
        cases hother
        exact (hloaded hotherLoaded).elim
      · rename_i hloaded
        split
        · rename_i hneeded
          exact Or.inl ⟨rfl, fun _ => (s.needed_iff name).mp hneeded⟩
        · rename_i hneeded
          exact Or.inr ⟨mod, rfl, by simpa using hloaded,
            fun hother => hneeded ((s.needed_iff name).mpr hother), rfl⟩

section Switched

variable {s : ModuleLoader} {name : Str} {mod : KernelModule}

theorem get?_switchedOn (other : Str) :
    (s.switchedOn name mod).available.get? other =
      if other = name then some { mod with isLoaded := true } else s.available.get? other :=
  Dict.get?_set _ _ _ _

theorem get?_switchedOff (other : Str) :
    (s.switchedOff name mod).available.get? other =
      if other = name then some { mod with isLoaded := false } else s.available.get? other :=
  Dict.get?_set _ _ _ _

theorem loaded_switchedOn {other : Str} :
    (s.switchedOn name mod).Loaded other ↔ other = name ∨ s.Loaded other := by
  unfold Loaded
  rw [get?_switchedOn]
  by_cases h : other = name <;> simp [h]

theorem loaded_switchedOff {other : Str} :
    (s.switchedOff name mod).Loaded other ↔ other ≠ name ∧ s.Loaded other := by
  unfold Loaded
  rw [get?_switchedOff]
  by_cases h : other = name <;> simp [h]

theorem lookupSymbol_switchedOn (symbol : Str) :
    (s.switchedOn name mod).lookupSymbol symbol =
      if symbol ∈ mod.exports then some name else s.lookupSymbol symbol := by
  change (mod.exports.foldl (fun table sym => table.set sym name) s.symbolTable).get? symbol = _
  rw [Dict.get?_foldl_set]
  congr

theorem lookupSymbol_switchedOff (symbol : Str) :
    (s.switchedOff name mod).lookupSymbol symbol =
      if symbol ∈ mod.exports then none else s.lookupSymbol symbol := by
  change (mod.exports.foldl Dict.erase s.symbolTable).get? symbol = _
  rw [Dict.get?_foldl_erase]
  congr

end Switched

/-! ## Calls -/

inductive Op
  | register (module : KernelModule)
  | load (name : Str)
  | unload (name : Str)

def step (s : ModuleLoader) : Op → ModuleLoader
  | .register module => s.register module
  | .load name => (s.load name).2
  | .unload name => (s.unload name).2

def Fresh (s : ModuleLoader) : Op → Prop
  | .register module => module.name ∉ s.available ∧ module.isLoaded = false
  | _ => True

instance (s : ModuleLoader) (op : Op) : Decidable (s.Fresh op) :=
  match op with
  | .register _ => inferInstanceAs (Decidable (_ ∧ _))
  | .load _ => isTrue trivial
  | .unload _ => isTrue trivial

theorem get?_register (s : ModuleLoader) (module : KernelModule) (name : Str) :
    (s.register module).available.get? name =
      if name = module.name then some module else s.available.get? name :=
  Dict.get?_set _ _ _ _

theorem loaded_register {s : ModuleLoader} {module : KernelModule}
    (h : s.Fresh (.register module)) {name : Str} :
    (s.register module).Loaded name ↔ s.Loaded name := by
  obtain ⟨hname, hunloaded⟩ := h
  have hnone := Dict.get?_eq_none.mpr hname
  unfold Loaded
  rw [get?_register]
  by_cases hsame : name = module.name
  · simp [hsame, hnone, hunloaded]
  · simp [hsame]

end ModuleLoader

end ComputeKernel.Modules
