import ComputeKernel.Base
import ComputeKernel.Lib.Dict

/-!
# Device registry

Devices are kept under their names, in the order of registration.
-/

namespace ComputeKernel.Drivers

open Lib

inductive DeviceClass
  | char
  | block
  | network
  | bus
  | platform
  | virtual
  | input
  | timer
  deriving DecidableEq, Repr

structure Device where
  name : Str
  deviceClass : DeviceClass
  major : Int := 0
  minor : Int := 0
  description : Str := []
  isVirtual : Bool := false
  /-- Name of the driver currently bound, or the empty text. -/
  boundDriver : Str := []
  properties : Dict Str Str := Dict.empty
  deriving DecidableEq

structure DeviceRegistry where
  devices : Dict Str Device

namespace DeviceRegistry

def init : DeviceRegistry :=
  ⟨Dict.empty⟩

/-- A name that is taken keeps its device. -/
def register (registry : DeviceRegistry) (device : Device) : DeviceRegistry :=
  if device.name ∈ registry.devices then registry
  else ⟨registry.devices.set device.name device⟩

def unregister (registry : DeviceRegistry) (name : Str) : Bool × DeviceRegistry :=
  (decide (name ∈ registry.devices), ⟨registry.devices.erase name⟩)

def get (registry : DeviceRegistry) (name : Str) : Option Device :=
  registry.devices.get? name

def setBound (registry : DeviceRegistry) (name driverName : Str) : DeviceRegistry :=
  ⟨registry.devices.modify name fun device => { device with boundDriver := driverName }⟩

def bindDriver (registry : DeviceRegistry) (deviceName driverName : Str) :
    Bool × DeviceRegistry :=
  (decide (deviceName ∈ registry.devices), registry.setBound deviceName driverName)

def BoundTo (registry : DeviceRegistry) (name driverName : Str) : Prop :=
  driverName ≠ [] ∧ ∃ device, registry.get name = some device ∧ device.boundDriver = driverName

def Keyed (registry : DeviceRegistry) : Prop :=
  ∀ name device, registry.get name = some device → device.name = name

theorem boundTo_unique {registry : DeviceRegistry} {name first second : Str}
    (h : registry.BoundTo name first) (h' : registry.BoundTo name second) : first = second := by
  obtain ⟨-, device, hget, rfl⟩ := h
  obtain ⟨-, device', hget', rfl⟩ := h'
  rw [hget] at hget'
  cases hget'
  rfl

theorem boundTo_of_get {registry : DeviceRegistry} {name : Str} {device : Device}
    (h : registry.get name = some device) (driverName : Str) :
    registry.BoundTo name driverName ↔
      driverName ≠ [] ∧ device.boundDriver = driverName := by
  unfold BoundTo
  rw [h]
  simp

theorem not_boundTo_of_get {registry : DeviceRegistry} {name : Str}
    (h : registry.get name = none) (driverName : Str) : ¬ registry.BoundTo name driverName := by
  rintro ⟨-, device, hget, -⟩
  rw [h] at hget
  cases hget

theorem register_of_not_mem {registry : DeviceRegistry} {device : Device}
    (h : device.name ∉ registry.devices) (name driverName : Str) :
    (registry.register device).BoundTo name driverName ↔
      registry.BoundTo name driverName ∨
        (name = device.name ∧ driverName ≠ [] ∧ device.boundDriver = driverName) := by
  have hnone : registry.get device.name = none := Dict.get?_eq_none.mpr h
  have hget : (registry.register device).get name =
      if name = device.name then some device else registry.get name := by
    unfold register
    rw [if_neg h]
    exact Dict.get?_set _ _ _ _
  by_cases hname : name = device.name
  · rw [if_pos hname] at hget
    rw [boundTo_of_get hget, hname]
    simp [not_boundTo_of_get hnone]
  · rw [if_neg hname] at hget
    simp [BoundTo, hget, hname]

theorem boundTo_unregister (registry : DeviceRegistry) (removed name driverName : Str) :
    (registry.unregister removed).2.BoundTo name driverName ↔
      name ≠ removed ∧ registry.BoundTo name driverName := by
  have hget : (registry.unregister removed).2.get name =
      if name = removed then none else registry.get name := Dict.get?_erase _ _ _
  unfold BoundTo
  rw [hget]
  by_cases hname : name = removed <;> simp [hname]

theorem get_setBound (registry : DeviceRegistry) (changed driverName name : Str) :
    (registry.setBound changed driverName).get name =
      (registry.get name).map fun device =>
        if name = changed then { device with boundDriver := driverName } else device :=
  Dict.get?_modify_eq_map _ _ _ _

theorem boundTo_setBound (registry : DeviceRegistry) (changed driverName name other : Str) :
    (registry.setBound changed driverName).BoundTo name other ↔
      if name = changed then
        name ∈ registry.devices ∧ driverName ≠ [] ∧ other = driverName
      else registry.BoundTo name other := by
  unfold BoundTo
  rw [get_setBound]
  by_cases hname : name = changed
  · subst hname
    simp only [if_true, Option.map_eq_some_iff, Dict.mem_iff_exists]
    constructor
    · rintro ⟨hother, device, ⟨old, hold, rfl⟩, rfl⟩
      exact ⟨⟨old, hold⟩, hother, rfl⟩
    · rintro ⟨⟨old, hold⟩, hdriver, rfl⟩
      exact ⟨hdriver, _, ⟨old, hold, rfl⟩, rfl⟩
  · simp [hname]

theorem keyed_register {registry : DeviceRegistry} (h : registry.Keyed) (device : Device) :
    (registry.register device).Keyed := by
  unfold register
  split
  · exact h
  · exact Dict.forall_get?_set h rfl

theorem keyed_unregister {registry : DeviceRegistry} (h : registry.Keyed) (removed : Str) :
    (registry.unregister removed).2.Keyed :=
  Dict.forall_get?_erase h removed

theorem keyed_setBound {registry : DeviceRegistry} (h : registry.Keyed)
    (changed driverName : Str) : (registry.setBound changed driverName).Keyed :=
  Dict.forall_get?_modify h changed fun _ _ hname => hname

end DeviceRegistry

end ComputeKernel.Drivers
