import ComputeKernel.Drivers.Bindings

/-!
# Probing all devices

A round of `probeAll` touches one unbound device and the list of the first driver that
claims it.  No probe looks at these lists, so every round sees the drivers of the first one.
-/

namespace ComputeKernel.Drivers

open Lib

namespace DriverRegistry

def FirstClaims (registry : DriverRegistry) (device : Device) (driver : Driver) : Prop :=
  ∃ before after, registry.drivers.values = before ++ driver :: after ∧
    driver.claims device ∧ ∀ other ∈ before, ¬ other.claims device

theorem probeDevice_eq_some {registry : DriverRegistry} {device : Device} {driver : Driver} :
    registry.probeDevice device = some driver ↔ registry.FirstClaims device driver := by
  unfold probeDevice FirstClaims
  rw [List.find?_eq_some_iff_append]
  constructor
  · rintro ⟨hclaims, before, after, hvalues, hbefore⟩
    exact ⟨before, after, hvalues, hclaims, fun other hother => by simpa using hbefore other hother⟩
  · rintro ⟨before, after, hvalues, hclaims, hbefore⟩
    exact ⟨hclaims, before, after, hvalues, fun other hother => by simpa using hbefore other hother⟩

theorem probeDevice_eq_none {registry : DriverRegistry} {device : Device} :
    registry.probeDevice device = none ↔
      ∀ driver ∈ registry.drivers.values, ¬ driver.claims device := by
  unfold probeDevice
  rw [List.find?_eq_none]

def claimant (registry : DriverRegistry) (device : Device) : Option Str :=
  (registry.probeDevice device).map Driver.name

theorem claimant_of_some {registry : DriverRegistry} {device : Device} {driver : Driver}
    (h : registry.probeDevice device = some driver) :
    registry.claimant device = some driver.name := by
  unfold claimant
  rw [h, Option.map_some]

theorem claimant_of_none {registry : DriverRegistry} {device : Device}
    (h : registry.probeDevice device = none) : registry.claimant device = none := by
  unfold claimant
  rw [h, Option.map_none]

/-- The device after `probeAll`. -/
def settle (registry : DriverRegistry) (device : Device) : Device :=
  if device.boundDriver ≠ [] then device
  else
    match registry.claimant device with
    | none => device
    | some driverName => { device with boundDriver := driverName }

theorem claimant_setList (registry : DriverRegistry) (changed : Str) (f : List Str → List Str)
    (device : Device) :
    (registry.setList changed f).claimant device = registry.claimant device := by
  unfold claimant probeDevice Dict.values setList
  rw [Dict.entries_modify, List.map_map, List.find?_map, List.find?_map, Option.map_map,
    Option.map_map]
  have hclaims : (fun driver : Driver => driver.claims device) ∘ Prod.snd ∘
      (fun entry : Str × Driver => if entry.1 = changed then
        (entry.1, { entry.2 with boundDevices := f entry.2.boundDevices }) else entry) =
      (fun driver : Driver => driver.claims device) ∘ Prod.snd := by
    funext entry
    simp only [Function.comp_apply]
    split <;> rfl
  rw [hclaims]
  congr 1
  funext entry
  simp only [Function.comp_apply]
  split <;> rfl

theorem claimant_mem {registry : DriverRegistry} (h : registry.Keyed) {device : Device}
    {driverName : Str} (hclaimant : registry.claimant device = some driverName) :
    driverName ∈ registry.drivers ∧ driverName ≠ [] := by
  obtain ⟨driver, hprobe, rfl⟩ := Option.map_eq_some_iff.mp hclaimant
  obtain ⟨name, hget⟩ := Dict.mem_values.mp (List.mem_of_find?_eq_some hprobe)
  obtain ⟨hname, hne⟩ := h name driver hget
  rw [hname]
  exact ⟨Dict.mem_of_get? hget, hne⟩

theorem settle_of_bound {registry : DriverRegistry} {device : Device}
    (h : device.boundDriver ≠ []) : registry.settle device = device :=
  if_pos h

theorem settle_of_none {registry : DriverRegistry} {device : Device}
    (h : registry.claimant device = none) : registry.settle device = device := by
  unfold settle
  rw [h]
  exact ite_self device

theorem settle_of_some {registry : DriverRegistry} {device : Device} {driverName : Str}
    (hbound : device.boundDriver = []) (h : registry.claimant device = some driverName) :
    registry.settle device = { device with boundDriver := driverName } := by
  unfold settle
  rw [if_neg (not_not.mpr hbound), h]

theorem settle_settle {registry : DriverRegistry} (h : registry.Keyed) (device : Device) :
    registry.settle (registry.settle device) = registry.settle device := by
  by_cases hbound : device.boundDriver = []
  · cases hclaimant : registry.claimant device with
    | none => rw [settle_of_none hclaimant, settle_of_none hclaimant]
    | some driverName =>
        rw [settle_of_some hbound hclaimant]
        exact settle_of_bound (claimant_mem h hclaimant).2
  · rw [settle_of_bound hbound, settle_of_bound hbound]

end DriverRegistry

namespace DriverCore

open DriverRegistry

def Claimed (s : DriverCore) (name driverName : Str) : Prop :=
  ∃ device, s.devices.get name = some device ∧ device.boundDriver = [] ∧
    s.drivers.claimant device = some driverName

/-- Everything the rounds of `probeAll` for the devices of these names do. -/
structure Probed (names : List Str) (s s' : DriverCore) : Prop where
  devices : ∀ name, s'.devices.get name =
    if name ∈ names then (s.devices.get name).map s.drivers.settle else s.devices.get name
  keys : s'.devices.devices.keys = s.devices.devices.keys
  claimant : ∀ device, s'.drivers.claimant device = s.drivers.claimant device
  lists : ∀ driverName name, s'.drivers.Lists driverName name ↔
    s.drivers.Lists driverName name ∨ (name ∈ names ∧ s.Claimed name driverName)

namespace Probed

variable {s s' s'' : DriverCore}

theorem settle {names : List Str} (h : Probed names s s') :
    s'.drivers.settle = s.drivers.settle := by
  funext device
  unfold DriverRegistry.settle
  rw [h.claimant]

theorem claimed {names : List Str} (h : Probed names s s') {name : Str} (hname : name ∉ names)
    (driverName : Str) : s'.Claimed name driverName ↔ s.Claimed name driverName := by
  unfold Claimed
  rw [h.devices, if_neg hname]
  simp only [h.claimant]

theorem nil (s : DriverCore) : Probed [] s s where
  devices _ := rfl
  keys := rfl
  claimant _ := rfl
  lists _ _ := by simp

theorem append {first rest : List Str} (hfirst : Probed first s s') (hrest : Probed rest s' s'')
    (hdisjoint : ∀ name ∈ first, name ∉ rest) : Probed (first ++ rest) s s'' where
  devices name := by
    rw [hrest.devices, hfirst.devices, hfirst.settle]
    by_cases hmem : name ∈ first
    · simp [hmem, hdisjoint name hmem]
    · simp [hmem]
  keys := hrest.keys.trans hfirst.keys
  claimant device := (hrest.claimant device).trans (hfirst.claimant device)
  lists driverName name := by
    rw [hrest.lists, hfirst.lists, List.mem_append, or_assoc, or_and_right]
    refine or_congr_right (or_congr_right (and_congr_right fun hmem => ?_))
    exact hfirst.claimed (fun hold => hdisjoint name hold hmem) driverName

theorem refl {name : Str}
    (hsettled : ∀ device, s.devices.get name = some device → s.drivers.settle device = device)
    (hunclaimed : ∀ driverName, ¬ s.Claimed name driverName) : Probed [name] s s where
  devices other := by
    split
    · rename_i hother
      rw [List.mem_singleton.mp hother]
      cases hget : s.devices.get name with
      | none => rfl
      | some device => rw [Option.map_some, hsettled device hget]
    · rfl
  keys := rfl
  claimant _ := rfl
  lists driverName other := by
    rw [List.mem_singleton]
    refine (or_iff_left ?_).symm
    rintro ⟨rfl, hclaimed⟩
    exact hunclaimed driverName hclaimed

theorem bind {name driverName : Str} {device : Device}
    (hget : s.devices.get name = some device) (hname : device.name = name)
    (hbound : device.boundDriver = []) (hclaimant : s.drivers.claimant device = some driverName)
    (hmem : driverName ∈ s.drivers.drivers) :
    Probed [name] s (s.step (.bind driverName device)) where
  devices other := by
    rw [bind_eq hmem, DeviceRegistry.get_setBound, hname]
    by_cases hother : other = name
    · simp [hother, hget, settle_of_some hbound hclaimant]
    · simp [hother]
  keys := by
    rw [bind_eq hmem]
    exact Dict.keys_modify _ _ _
  claimant device := by
    rw [bind_eq hmem]
    exact claimant_setList _ _ _ device
  lists other listed := by
    rw [bind_eq hmem, lists_append hmem, hname, List.mem_singleton, or_comm]
    refine or_congr_right ?_
    constructor
    · rintro ⟨rfl, rfl⟩
      exact ⟨rfl, device, hget, hbound, hclaimant⟩
    · rintro ⟨rfl, device', hget', -, hclaimant'⟩
      cases hget.symm.trans hget'
      cases hclaimant.symm.trans hclaimant'
      exact ⟨rfl, rfl⟩

end Probed

theorem probed_probeOne {s : DriverCore} (h : s.Keyed) (name : Str) :
    Probed [name] s (ofPair (probeOne (s.drivers, s.devices) name)) := by
  unfold probeOne
  split
  · rename_i hget
    refine Probed.refl (fun device hsome => ?_) ?_
    · cases hget.symm.trans hsome
    · rintro driverName ⟨device, hsome, -⟩
      cases hget.symm.trans hsome
  · rename_i device hget
    split
    · rename_i hbound
      refine Probed.refl (fun device' hsome => ?_) ?_
      · cases hget.symm.trans hsome
        exact settle_of_bound hbound
      · rintro driverName ⟨device', hsome, hunbound, -⟩
        cases hget.symm.trans hsome
        exact hbound hunbound
    · rename_i hbound
      split
      · rename_i hprobe
        have hnone := claimant_of_none hprobe
        refine Probed.refl (fun device' hsome => ?_) ?_
        · cases hget.symm.trans hsome
          exact settle_of_none hnone
        · rintro driverName ⟨device', hsome, -, hclaimant⟩
          cases hget.symm.trans hsome
          cases hnone.symm.trans hclaimant
      · rename_i driver hprobe
        have hclaimant := claimant_of_some hprobe
        exact Probed.bind hget (h.devices name device hget) (not_not.mp hbound) hclaimant
          (claimant_mem h.drivers hclaimant).1

theorem probed_foldl {s : DriverCore} (h : s.Keyed) {names : List Str} (hnodup : names.Nodup) :
    Probed names s (ofPair (names.foldl probeOne (s.drivers, s.devices))) := by
  induction names generalizing s with
  | nil => exact Probed.nil s
  | cons name names ih =>
      obtain ⟨hfresh, hrest⟩ := List.nodup_cons.mp hnodup
      have hkeyed : (ofPair (probeOne (s.drivers, s.devices) name)).Keyed := by
        apply Filed.probeOne
        exact h
      refine (probed_probeOne h name).append (ih hkeyed hrest) fun other hother => ?_
      rw [List.mem_singleton.mp hother]
      exact hfresh

theorem probed_probeAll {s : DriverCore} (h : s.Keyed) :
    Probed s.devices.devices.keys s (s.step .probeAll) :=
  probed_foldl h s.devices.devices.keys_nodup

theorem get_probeAll {s : DriverCore} (h : s.Keyed) (name : Str) :
    (s.step .probeAll).devices.get name = (s.devices.get name).map s.drivers.settle := by
  rw [(probed_probeAll h).devices]
  split
  · rfl
  · rename_i hmem
    have hnone : s.devices.get name = none := Dict.get?_eq_none.mpr hmem
    rw [hnone, Option.map_none]

theorem probeOne_of_settled {s : DriverCore} (h : s.Keyed) {name : Str}
    (hsettled : ∀ device, s.devices.get name = some device → s.drivers.settle device = device) :
    probeOne (s.drivers, s.devices) name = (s.drivers, s.devices) := by
  unfold probeOne
  split
  · rfl
  · rename_i device hget
    split
    · rfl
    · rename_i hbound
      split
      · rfl
      · rename_i driver hprobe
        have hclaimant := claimant_of_some hprobe
        have hsame := hsettled device hget
        rw [settle_of_some (not_not.mp hbound) hclaimant] at hsame
        have hname : driver.name = [] := by
          rw [← not_not.mp hbound]
          exact congrArg Device.boundDriver hsame
        exact absurd hname (claimant_mem h.drivers hclaimant).2

theorem probeAll_probeAll {s : DriverCore} (h : s.Keyed) :
    (s.step .probeAll).step .probeAll = s.step .probeAll := by
  have hprobed := probed_probeAll h
  have hkeyed := h.probeAll
  generalize hafter : s.step .probeAll = s' at hprobed hkeyed
  have hsettled : ∀ name device, s'.devices.get name = some device →
      s'.drivers.settle device = device := by
    intro name device hget
    rw [← hafter, get_probeAll h] at hget
    obtain ⟨old, -, rfl⟩ := Option.map_eq_some_iff.mp hget
    rw [hprobed.settle]
    exact settle_settle h.drivers old
  change ofPair (List.foldl _ _ _) = s'
  refine List.foldlRecOn (motive := fun both => ofPair both = s') _ _ rfl ?_
  rintro ⟨drivers, devices⟩ rfl name -
  exact congrArg ofPair (probeOne_of_settled hkeyed (hsettled name))

structure BindsFirst (s s' : DriverCore) : Prop where
  /-- A device that is bound stays as it is. -/
  bound : ∀ name device, s.devices.get name = some device → device.boundDriver ≠ [] →
    s'.devices.get name = some device
  /-- Any other is bound to the first driver that claims it, which then lists it. -/
  claimed : ∀ name device driver, s.devices.get name = some device → device.boundDriver = [] →
    s.drivers.FirstClaims device driver →
    s'.devices.get name = some { device with boundDriver := driver.name } ∧
      s'.drivers.Lists driver.name name
  /-- It stays unbound exactly when no driver claims it. -/
  unbound : ∀ name device, s.devices.get name = some device → device.boundDriver = [] →
    ((∃ device', s'.devices.get name = some device' ∧ device'.boundDriver = []) ↔
      ∀ driver ∈ s.drivers.drivers.values, ¬ driver.claims device)
  /-- No device comes or goes, and only the devices bound now are listed anew. -/
  keys : s'.devices.devices.keys = s.devices.devices.keys
  lists : ∀ driverName name, s'.drivers.Lists driverName name ↔
    s.drivers.Lists driverName name ∨ s.Claimed name driverName

theorem bindsFirst_probeAll {s : DriverCore} (h : s.Keyed) : BindsFirst s (s.step .probeAll) where
  bound name device hget hbound := by
    rw [get_probeAll h, hget, Option.map_some, settle_of_bound hbound]
  claimed name device driver hget hbound hfirst := by
    have hclaimant := claimant_of_some (probeDevice_eq_some.mpr hfirst)
    constructor
    · rw [get_probeAll h, hget, Option.map_some, settle_of_some hbound hclaimant]
    · rw [(probed_probeAll h).lists]
      exact Or.inr ⟨Dict.mem_of_get? hget, device, hget, hbound, hclaimant⟩
  unbound name device hget hbound := by
    rw [get_probeAll h, hget, Option.map_some, ← probeDevice_eq_none]
    cases hprobe : s.drivers.probeDevice device with
    | none =>
        have hnone := claimant_of_none hprobe
        rw [settle_of_none hnone]
        exact iff_of_true ⟨device, rfl, hbound⟩ rfl
    | some driver =>
        have hclaimant := claimant_of_some hprobe
        rw [settle_of_some hbound hclaimant]
        refine iff_of_false ?_ nofun
        rintro ⟨device', hsome, hunbound⟩
        cases hsome
        exact (claimant_mem h.drivers hclaimant).2 hunbound
  keys := (probed_probeAll h).keys
  lists driverName name := by
    rw [(probed_probeAll h).lists]
    refine or_congr_right (and_iff_right_of_imp ?_)
    rintro ⟨device, hget, -⟩
    exact Dict.mem_of_get? hget

/-- In every state reached in which no driver has the empty name, `probeAll` binds by first
match, and a second one right after it changes nothing. -/
theorem probeAll_binds_first (ops : List Op)
    (hnames : ∀ name ∈ (Run.run step init ops).drivers.drivers, name ≠ []) :
    let s := Run.run step init ops
    BindsFirst s (s.step .probeAll) ∧
      (s.step .probeAll).step .probeAll = s.step .probeAll := by
  intro s
  have hkeyed : s.Keyed := (filed_run ops).keyed hnames
  exact ⟨bindsFirst_probeAll hkeyed, probeAll_probeAll hkeyed⟩

/-- A raising probe, a refusal and two drivers that would both take the disk. -/
theorem probeAll_binds_first_disk :
    let disk : Device := { name := "sda".toList, deviceClass := .block }
    let raising : Driver := { name := "nvme".toList, probe := some fun _ => none }
    let ata : Driver := { name := "ata".toList, supportedDevices := ["sda".toList] }
    let scsi : Driver := { name := "scsi".toList, probe := some fun _ => some true }
    let ops : List Op :=
      [.registerDriver raising, .registerDriver ata, .registerDriver scsi, .registerDevice disk]
    let s := Run.run step init ops
    (∀ name ∈ s.drivers.drivers, name ≠ []) ∧
      BindsFirst s (s.step .probeAll) ∧
      (s.step .probeAll).step .probeAll = s.step .probeAll ∧
      (s.step .probeAll).devices.get "sda".toList =
        some { disk with boundDriver := "ata".toList } := by
  intro disk raising ata scsi ops s
  have hkeys : s.drivers.drivers.keys = ["nvme".toList, "ata".toList, "scsi".toList] := by decide
  have hnames : ∀ name ∈ s.drivers.drivers, name ≠ [] := by
    intro name hmem
    rw [Dict.mem_iff_keys, hkeys] at hmem
    rintro rfl
    revert hmem
    decide
  obtain ⟨hbinds, hsecond⟩ := probeAll_binds_first ops hnames
  exact ⟨hnames, hbinds, hsecond, by decide⟩

end DriverCore

end ComputeKernel.Drivers
