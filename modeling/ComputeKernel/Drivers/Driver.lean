import ComputeKernel.Drivers.Device

/-!
# Driver registry

A driver lists the devices bound to it, and a device names its driver.  A probe goes through
the drivers in the order of registration and takes the first that claims the device.
-/

namespace ComputeKernel.Drivers

open Lib

structure Driver where
  name : Str
  description : Str := []
  supportedDevices : List Str := []
  /-- The answer of a custom probe, or `none` when it raises. -/
  probe : Option (Device → Option Bool) := none
  isLoaded : Bool := false
  boundDevices : List Str := []

namespace Driver

def defaultProbe (driver : Driver) (device : Device) : Bool :=
  decide (device.name ∈ driver.supportedDevices)

/-- A probe that raises does not claim the device. -/
def claims (driver : Driver) (device : Device) : Bool :=
  match driver.probe with
  | none => driver.defaultProbe device
  | some probe => (probe device).getD false

end Driver

structure DriverRegistry where
  drivers : Dict Str Driver

namespace DriverRegistry

def init : DriverRegistry :=
  ⟨Dict.empty⟩

def register (registry : DriverRegistry) (driver : Driver) : DriverRegistry :=
  if driver.name ∈ registry.drivers then registry
  else ⟨registry.drivers.set driver.name { driver with isLoaded := true }⟩

/-- The driver object that leaves the registry keeps its list. -/
def unregister (registry : DriverRegistry) (name : Str) : Bool × DriverRegistry :=
  (decide (name ∈ registry.drivers), ⟨registry.drivers.erase name⟩)

def probeDevice (registry : DriverRegistry) (device : Device) : Option Driver :=
  registry.drivers.values.find? fun driver => driver.claims device

def setList (registry : DriverRegistry) (name : Str) (f : List Str → List Str) :
    DriverRegistry :=
  ⟨registry.drivers.modify name fun driver =>
    { driver with boundDevices := f driver.boundDevices }⟩

/-- The device is looked up by its name, whether or not it is the one registered. -/
def bind (registry : DriverRegistry) (driverName : Str) (device : Device)
    (devices : DeviceRegistry) : Bool × DriverRegistry × DeviceRegistry :=
  match registry.drivers.get? driverName with
  | none => (false, registry, devices)
  | some _ =>
      (true,
        registry.setList driverName fun names =>
          if device.name ∈ names then names else names ++ [device.name],
        (devices.bindDriver device.name driverName).2)

def remove (registry : DriverRegistry) (driverName deviceName : Str)
    (devices : DeviceRegistry) : Bool × DriverRegistry × DeviceRegistry :=
  match registry.drivers.get? driverName with
  | none => (false, registry, devices)
  | some _ =>
      (true, registry.setList driverName fun names => names.erase deviceName,
        devices.setBound deviceName [])

/-- One round of the loop of `probeAll`; the device is looked at as it is then. -/
def probeOne (both : DriverRegistry × DeviceRegistry) (name : Str) :
    DriverRegistry × DeviceRegistry :=
  match both.2.get name with
  | none => both
  | some device =>
      if device.boundDriver ≠ [] then both
      else
        match both.1.probeDevice device with
        | none => both
        | some driver => (both.1.bind driver.name device both.2).2

def probeAll (registry : DriverRegistry) (devices : DeviceRegistry) :
    DriverRegistry × DeviceRegistry :=
  devices.devices.keys.foldl probeOne (registry, devices)

def Lists (registry : DriverRegistry) (driverName name : Str) : Prop :=
  ∃ driver, registry.drivers.get? driverName = some driver ∧ name ∈ driver.boundDevices

def Filed (P : Str → Prop) (registry : DriverRegistry) : Prop :=
  ∀ name driver, registry.drivers.get? name = some driver → driver.name = name ∧ P name

def Keyed (registry : DriverRegistry) : Prop :=
  ∀ name driver, registry.drivers.get? name = some driver → driver.name = name ∧ name ≠ []

structure WellFormed (registry : DriverRegistry) : Prop where
  keyed : registry.Keyed
  nodup : ∀ name driver, registry.drivers.get? name = some driver → driver.boundDevices.Nodup

theorem lists_of_get {registry : DriverRegistry} {driverName : Str} {driver : Driver}
    (h : registry.drivers.get? driverName = some driver) (name : Str) :
    registry.Lists driverName name ↔ name ∈ driver.boundDevices := by
  unfold Lists
  rw [h]
  simp

theorem not_lists_of_not_mem {registry : DriverRegistry} {driverName : Str}
    (h : driverName ∉ registry.drivers) (name : Str) : ¬ registry.Lists driverName name := by
  rintro ⟨driver, hget, -⟩
  exact h (Dict.mem_of_get? hget)

theorem lists_register {registry : DriverRegistry} {driver : Driver}
    (h : driver.name ∉ registry.drivers) (driverName name : Str) :
    (registry.register driver).Lists driverName name ↔
      registry.Lists driverName name ∨
        (driverName = driver.name ∧ name ∈ driver.boundDevices) := by
  have hget : (registry.register driver).drivers.get? driverName =
      if driverName = driver.name then some { driver with isLoaded := true }
      else registry.drivers.get? driverName := by
    unfold register
    rw [if_neg h]
    exact Dict.get?_set _ _ _ _
  by_cases hname : driverName = driver.name
  · subst hname
    rw [if_pos rfl] at hget
    rw [lists_of_get hget]
    simp [not_lists_of_not_mem h]
  · rw [if_neg hname] at hget
    simp [Lists, hget, hname]

theorem lists_unregister (registry : DriverRegistry) (removed driverName name : Str) :
    (registry.unregister removed).2.Lists driverName name ↔
      driverName ≠ removed ∧ registry.Lists driverName name := by
  have hget : (registry.unregister removed).2.drivers.get? driverName =
      if driverName = removed then none else registry.drivers.get? driverName :=
    Dict.get?_erase _ _ _
  unfold Lists
  rw [hget]
  by_cases hname : driverName = removed <;> simp [hname]

theorem get?_setList (registry : DriverRegistry) (changed : Str) (f : List Str → List Str)
    (driverName : Str) :
    (registry.setList changed f).drivers.get? driverName =
      (registry.drivers.get? driverName).map fun driver =>
        if driverName = changed then { driver with boundDevices := f driver.boundDevices }
        else driver :=
  Dict.get?_modify_eq_map _ _ _ _

theorem lists_setList_self {registry : DriverRegistry} {driverName : Str} {driver : Driver}
    (h : registry.drivers.get? driverName = some driver) (f : List Str → List Str)
    (name : Str) :
    (registry.setList driverName f).Lists driverName name ↔ name ∈ f driver.boundDevices := by
  have hget := registry.get?_setList driverName f driverName
  rw [h, Option.map_some, if_pos rfl] at hget
  exact lists_of_get hget name

theorem lists_setList_of_ne (registry : DriverRegistry) {changed driverName : Str}
    (h : driverName ≠ changed) (f : List Str → List Str) (name : Str) :
    (registry.setList changed f).Lists driverName name ↔ registry.Lists driverName name := by
  have hget := registry.get?_setList changed f driverName
  unfold Lists
  rw [hget]
  simp [h]

theorem lists_append {registry : DriverRegistry} {driverName : Str}
    (h : driverName ∈ registry.drivers) (deviceName other name : Str) :
    (registry.setList driverName fun names =>
        if deviceName ∈ names then names else names ++ [deviceName]).Lists other name ↔
      (other = driverName ∧ name = deviceName) ∨ registry.Lists other name := by
  by_cases hother : other = driverName
  · subst hother
    obtain ⟨driver, hget⟩ := Dict.mem_iff_exists.mp h
    rw [lists_setList_self hget, lists_of_get hget]
    split
    · rename_i hmem
      constructor
      · exact Or.inr
      · rintro (⟨-, rfl⟩ | hname)
        · exact hmem
        · exact hname
    · simp only [List.mem_append, List.mem_singleton, true_and]
      exact Or.comm
  · rw [lists_setList_of_ne registry hother]
    simp [hother]

theorem lists_erase {registry : DriverRegistry} (h : registry.WellFormed)
    (driverName deviceName other name : Str) :
    (registry.setList driverName fun names => names.erase deviceName).Lists other name ↔
      registry.Lists other name ∧ ¬ (other = driverName ∧ name = deviceName) := by
  by_cases hother : other = driverName
  · subst hother
    cases hget : registry.drivers.get? other with
    | none =>
        have hmem := Dict.get?_eq_none.mp hget
        have hafter : other ∉ (registry.setList other fun names =>
            names.erase deviceName).drivers := fun hin => hmem (Dict.mem_modify.mp hin)
        exact iff_of_false (not_lists_of_not_mem hafter name)
          fun hlists => not_lists_of_not_mem hmem name hlists.1
    | some driver =>
        rw [lists_setList_self hget, lists_of_get hget, (h.nodup _ _ hget).mem_erase_iff]
        simp only [true_and]
        exact and_comm
  · rw [lists_setList_of_ne registry hother]
    simp [hother]

theorem Filed.register {P : Str → Prop} {registry : DriverRegistry} (h : registry.Filed P)
    {driver : Driver} (hname : P driver.name) : (registry.register driver).Filed P := by
  unfold DriverRegistry.register
  split
  · exact h
  · exact Dict.forall_get?_set h ⟨rfl, hname⟩

theorem Filed.setList {P : Str → Prop} {registry : DriverRegistry} (h : registry.Filed P)
    (changed : Str) (f : List Str → List Str) : (registry.setList changed f).Filed P :=
  Dict.forall_get?_modify h changed fun _ _ hname => hname

theorem WellFormed.register {registry : DriverRegistry} (h : registry.WellFormed)
    {driver : Driver} (hname : driver.name ≠ [])
    (hlist : driver.name ∉ registry.drivers → driver.boundDevices.Nodup) :
    (registry.register driver).WellFormed := by
  refine ⟨Filed.register h.keyed hname, ?_⟩
  unfold DriverRegistry.register
  split
  · exact h.nodup
  · rename_i hfresh
    exact Dict.forall_get?_set h.nodup (hlist hfresh)

theorem WellFormed.unregister {registry : DriverRegistry} (h : registry.WellFormed)
    (removed : Str) : (registry.unregister removed).2.WellFormed where
  keyed := Dict.forall_get?_erase h.keyed removed
  nodup := Dict.forall_get?_erase h.nodup removed

theorem WellFormed.setList {registry : DriverRegistry} (h : registry.WellFormed)
    (changed : Str) {f : List Str → List Str} (hf : ∀ names, names.Nodup → (f names).Nodup) :
    (registry.setList changed f).WellFormed where
  keyed := Filed.setList h.keyed changed f
  nodup := Dict.forall_get?_modify h.nodup changed fun _ driver => hf driver.boundDevices

end DriverRegistry

end ComputeKernel.Drivers
