import ComputeKernel.Lib.Run
import ComputeKernel.Memory.Virtual

/-!
# Access checks

The access check and the fault handler look at the first VMA that contains the address and
ask it for `w` and `x`.  Neither asks for `r`, so the two agree with each other everywhere,
and with the flags everywhere but on plain reads.
-/

namespace ComputeKernel.Memory

open Lib Lib.Run

def Permits (flags : Str) (write exec : Bool) : Prop :=
  (write = false ∧ exec = false → 'r' ∈ flags) ∧ (write = true → 'w' ∈ flags) ∧
    (exec = true → 'x' ∈ flags)

/-- How a report ends when the fault was resolved, whatever names and flags stand in it. -/
def ReportsSuccess (report : Str) : Prop :=
  "-> demand page satisfied (simulated alloc)".toList <:+ report

namespace AddressSpace

variable {space : AddressSpace} {addr : Int}

theorem covered_of_flagsAt {flags : Str} (h : space.flagsAt addr = some flags) :
    space.Covered addr := by
  obtain ⟨area, harea, -⟩ := Option.map_eq_some_iff.mp h
  exact ⟨area, List.mem_of_find?_eq_some harea, by simpa using List.find?_some harea⟩

theorem flagsAt_eq_none : space.flagsAt addr = none ↔ space.lookup addr = none :=
  Option.map_eq_none_iff

theorem checkAccess_of_none (h : space.flagsAt addr = none) (write exec : Bool) :
    space.checkAccess addr write exec = false := by
  rw [flagsAt_eq_none] at h
  simp only [checkAccess, h]

theorem checkAccess_of_some {flags : Str} (h : space.flagsAt addr = some flags)
    (write exec : Bool) :
    space.checkAccess addr write exec = true ↔
      (write = true → 'w' ∈ flags) ∧ (exec = true → 'x' ∈ flags) := by
  obtain ⟨area, harea, rfl⟩ := Option.map_eq_some_iff.mp h
  simp only [checkAccess, harea]
  split
  · rename_i hwrite
    refine iff_of_false Bool.false_ne_true fun hboth => ?_
    exact hwrite.2 (hboth.1 hwrite.1)
  · rename_i hwrite
    split
    · rename_i hexec
      refine iff_of_false Bool.false_ne_true fun hboth => ?_
      exact hexec.2 (hboth.2 hexec.1)
    · rename_i hexec
      refine iff_of_true rfl ⟨fun hset => ?_, fun hset => ?_⟩
      · exact not_not.mp fun hmissing => hwrite ⟨hset, hmissing⟩
      · exact not_not.mp fun hmissing => hexec ⟨hset, hmissing⟩

theorem checkAccess_exact_iff (write exec : Bool) :
    (space.checkAccess addr write exec = true ↔
      ∃ flags, space.flagsAt addr = some flags ∧ Permits flags write exec) ↔
    (write = false → exec = false → ∀ flags, space.flagsAt addr = some flags →
      'r' ∈ flags) := by
  cases hflags : space.flagsAt addr with
  | none =>
      rw [checkAccess_of_none hflags]
      simp
  | some flags =>
      rw [checkAccess_of_some hflags]
      simp only [Option.some.injEq, exists_eq_left', forall_eq', Permits]
      constructor
      · intro hexact hwrite hexec
        have hboth : (write = true → 'w' ∈ flags) ∧ (exec = true → 'x' ∈ flags) := by
          simp [hwrite, hexec]
        exact (hexact.mp hboth).1 ⟨hwrite, hexec⟩
      · intro hread
        constructor
        · intro hboth
          exact ⟨fun hset => hread hset.1 hset.2, hboth⟩
        · exact And.right

/-! ### Runs of `map` and `unmap` -/

inductive Op
  | map (start size : Int) (flags name : Str)
  | unmap (start : Int)

def step (space : AddressSpace) : Op → AddressSpace
  | .map start size flags name => space.map start size flags name
  | .unmap start => (space.unmap start).2

def Op.Readable : Op → Prop
  | .map _ _ flags _ => 'r' ∈ flags
  | .unmap _ => True

def Readable (space : AddressSpace) : Prop :=
  ∀ area ∈ space.areas, 'r' ∈ area.flags

theorem readable_step (space : AddressSpace) (op : Op) (h : space.Readable)
    (hop : op.Readable) : (space.step op).Readable := by
  cases op with
  | map start size flags name =>
      intro area harea
      rcases List.mem_append.mp harea with hold | hnew
      · exact h area hold
      · rw [List.mem_singleton.mp hnew]
        exact hop
  | unmap start =>
      intro area harea
      exact h area (List.mem_of_mem_filter harea)

/-- While every mapping can be read, all checks are exact, whichever VMA hides which. -/
theorem checkAccess_exact_run (pid : Int) {ops : List Op} (hops : ∀ op ∈ ops, op.Readable)
    (addr : Int) (write exec : Bool) :
    let space := run step ⟨pid, []⟩ ops
    (space.checkAccess addr write exec = true ↔
      ∃ flags, space.flagsAt addr = some flags ∧ Permits flags write exec) := by
  intro space
  have hreadable : space.Readable :=
    run_of_guarded (G := fun _ op => op.Readable) readable_step
      (List.forall_mem_nil _) (guarded_of_forall (fun op hop _ => hops op hop) _)
  rw [checkAccess_exact_iff]
  intro _ _ flags hflags
  obtain ⟨area, harea, rfl⟩ := Option.map_eq_some_iff.mp hflags
  exact hreadable area (List.mem_of_find?_eq_some harea)

end AddressSpace

/-! ## Faults -/

theorem not_reportsSuccess_append (front : Str) {tail : Str}
    (h : ¬ "-> demand page satisfied (simulated alloc)".toList <:+ tail)
    (h' : ¬ tail <:+ "-> demand page satisfied (simulated alloc)".toList) :
    ¬ ReportsSuccess (front ++ tail) := by
  intro hsuccess
  rcases List.suffix_or_suffix_of_suffix hsuccess (List.suffix_append front tail) with
    hshort | hlong
  · exact h hshort
  · exact h' hlong

namespace VirtualMemoryManager

variable {vmm : VirtualMemoryManager} {pid addr : Int}

theorem reportsSuccess_iff {space : AddressSpace}
    (hspace : vmm.addressSpaces.get? pid = some space) (write : Bool) :
    ReportsSuccess (vmm.simulatePageFault pid addr write) ↔
      space.checkAccess addr write = true := by
  simp only [simulatePageFault, AddressSpace.checkAccess, hspace]
  cases hlookup : space.lookup addr with
  | none =>
      dsimp only
      rw [← List.append_assoc]
      refine iff_of_false ?_ Bool.false_ne_true
      exact not_reportsSuccess_append _ (by decide) (by decide)
  | some area =>
      dsimp only
      by_cases hwrite : write = true ∧ 'w' ∉ area.flags
      · rw [if_pos hwrite, if_pos hwrite, ← List.append_assoc]
        refine iff_of_false ?_ Bool.false_ne_true
        exact not_reportsSuccess_append _ (by decide) (by decide)
      · rw [if_neg hwrite, if_neg hwrite, ← List.append_assoc]
        exact iff_of_true (List.suffix_append _ _) rfl

def AccessAgrees (vmm : VirtualMemoryManager) (pid addr : Int) (write exec : Bool) : Prop :=
  ∀ space, vmm.addressSpaces.get? pid = some space →
    (ReportsSuccess (vmm.simulatePageFault pid addr write) ↔
      space.checkAccess addr write = true) ∧
    (space.checkAccess addr write exec = true ↔
      space.Covered addr ∧ ∃ flags, space.flagsAt addr = some flags ∧ Permits flags write exec)

/-- Whatever has been mapped and unmapped, an access is decided as the flags say exactly when
it writes, or executes, or finds no VMA, or finds one that can be read. -/
theorem accessAgrees_iff (vmm : VirtualMemoryManager) (pid addr : Int) (write exec : Bool) :
    vmm.AccessAgrees pid addr write exec ↔
      (write = false → exec = false → ∀ space, vmm.addressSpaces.get? pid = some space →
        ∀ flags, space.flagsAt addr = some flags → 'r' ∈ flags) := by
  have hcovered : ∀ space : AddressSpace,
      (space.Covered addr ∧ ∃ flags, space.flagsAt addr = some flags ∧
        Permits flags write exec) ↔
      ∃ flags, space.flagsAt addr = some flags ∧ Permits flags write exec := by
    intro space
    refine and_iff_right_of_imp fun hfound => ?_
    obtain ⟨flags, hflags, -⟩ := hfound
    exact AddressSpace.covered_of_flagsAt hflags
  constructor
  · intro hagrees hwrite hexec space hspace
    have hexact := (hagrees space hspace).2
    rw [hcovered] at hexact
    exact AddressSpace.checkAccess_exact_iff write exec |>.mp hexact hwrite hexec
  · intro hread space hspace
    refine ⟨reportsSuccess_iff hspace write, ?_⟩
    rw [hcovered, AddressSpace.checkAccess_exact_iff]
    exact fun hwrite hexec => hread hwrite hexec space hspace

theorem read_without_permission :
    let vmm := ((init (PhysicalMemoryManager.init 16)).createAddressSpace 1).mapPages 1 0x10000
      0x1000 "---".toList "[guard]".toList |>.2
    ¬ vmm.AccessAgrees 1 0x10000 false false ∧
    (vmm.addressSpaces.get? 1).map (fun space => space.checkAccess 0x10000) = some true := by
  intro vmm
  have hspace : vmm.addressSpaces.get? 1 = some ((newAddressSpace 1).map 0x10000 0x1000
      "---".toList "[guard]".toList) := by
    decide
  refine ⟨?_, by rw [hspace]; decide⟩
  intro hagrees
  obtain ⟨-, hexact⟩ := hagrees _ hspace
  obtain ⟨-, flags, hflags, hpermits⟩ := hexact.mp (by decide)
  cases hflags
  exact absurd (hpermits.1 ⟨rfl, rfl⟩) (by decide)

end VirtualMemoryManager

end ComputeKernel.Memory
