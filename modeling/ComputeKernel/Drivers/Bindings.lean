import ComputeKernel.Drivers.Driver
import ComputeKernel.Lib.Run

/-!
# Agreement of the two sides of a binding

A binding is stored twice: the device names its driver, and the driver lists the device.
Neither registration nor removal from a registry looks at the other side, so the two agree
for as long as only unbound objects come and go and no device is taken over.
-/

namespace ComputeKernel.Drivers

open Lib

structure DriverCore where
  drivers : DriverRegistry
  devices : DeviceRegistry

namespace DriverCore

inductive Op
  | registerDriver (driver : Driver)
  | unregisterDriver (name : Str)
  | bind (driverName : Str) (device : Device)
  | remove (driverName deviceName : Str)
  | probeAll
  | registerDevice (device : Device)
  | unregisterDevice (name : Str)

def init : DriverCore :=
  ⟨DriverRegistry.init, DeviceRegistry.init⟩

def ofPair (both : DriverRegistry × DeviceRegistry) : DriverCore :=
  ⟨both.1, both.2⟩

def step (s : DriverCore) : Op → DriverCore
  | .registerDriver driver => { s with drivers := s.drivers.register driver }
  | .unregisterDriver name => { s with drivers := (s.drivers.unregister name).2 }
  | .bind driverName device => ofPair (s.drivers.bind driverName device s.devices).2
  | .remove driverName deviceName =>
      ofPair (s.drivers.remove driverName deviceName s.devices).2
  | .probeAll => ofPair (s.drivers.probeAll s.devices)
  | .registerDevice device => { s with devices := s.devices.register device }
  | .unregisterDevice name => { s with devices := (s.devices.unregister name).2 }

def Named (_ : DriverCore) : Op → Prop
  | .registerDriver driver => driver.name ≠ []
  | _ => True

structure Agrees (s : DriverCore) : Prop where
  both : ∀ {name device driverName driver}, s.devices.get name = some device →
    s.drivers.drivers.get? driverName = some driver →
    (device.boundDriver = driver.name ↔ device.name ∈ driver.boundDevices)
  named : ∀ {name device}, s.devices.get name = some device → device.boundDriver ≠ [] →
    device.boundDriver ∈ s.drivers.drivers
  listed : ∀ {driverName driver name}, s.drivers.drivers.get? driverName = some driver →
    name ∈ driver.boundDevices → name ∈ s.devices.devices
  unique : ∀ {name first second}, s.drivers.Lists first name → s.drivers.Lists second name →
    first = second

structure WellFormed (s : DriverCore) : Prop where
  devices : s.devices.Keyed
  drivers : s.drivers.WellFormed

def Matches (s : DriverCore) : Prop :=
  ∀ name driverName, s.devices.BoundTo name driverName ↔ s.drivers.Lists driverName name

def FreeFor (s : DriverCore) (name driverName : Str) : Prop :=
  ∀ device, s.devices.get name = some device →
    device.boundDriver = [] ∨ device.boundDriver = driverName

/-- Only unbound devices and drivers without devices come and go, and a driver is bound
to a registered device, or removed from one, that no other driver has. -/
def Permits (s : DriverCore) : Op → Prop
  | .registerDriver driver => driver.name ∉ s.drivers.drivers → driver.boundDevices = []
  | .unregisterDriver name =>
      ∀ driver, s.drivers.drivers.get? name = some driver → driver.boundDevices = []
  | .bind driverName device => driverName ∈ s.drivers.drivers →
      device.name ∈ s.devices.devices ∧ s.FreeFor device.name driverName
  | .remove driverName deviceName =>
      driverName ∈ s.drivers.drivers → s.FreeFor deviceName driverName
  | .probeAll => True
  | .registerDevice device => device.name ∉ s.devices.devices → device.boundDriver = []
  | .unregisterDevice name =>
      ∀ device, s.devices.get name = some device → device.boundDriver = []

theorem agrees_iff {s : DriverCore} (hdevices : s.devices.Keyed)
    (hdrivers : s.drivers.Keyed) : s.Agrees ↔ s.Matches := by
  constructor
  · intro h name driverName
    constructor
    · rintro ⟨hne, device, hget, rfl⟩
      obtain ⟨driver, hdriver⟩ := Dict.mem_iff_exists.mp (h.named hget hne)
      have hname := (hdrivers _ _ hdriver).1
      have hmem := (h.both hget hdriver).mp hname.symm
      rw [hdevices _ _ hget] at hmem
      exact ⟨driver, hdriver, hmem⟩
    · rintro ⟨driver, hdriver, hmem⟩
      obtain ⟨device, hget⟩ := Dict.mem_iff_exists.mp (h.listed hdriver hmem)
      obtain ⟨hname, hne⟩ := hdrivers _ _ hdriver
      have hbound := (h.both hget hdriver).mpr (by rwa [hdevices _ _ hget])
      exact ⟨hne, device, hget, hbound.trans hname⟩
  · intro h
    constructor
    · intro name device driverName driver hget hdriver
      obtain ⟨hname, hne⟩ := hdrivers _ _ hdriver
      have hsides := h name driverName
      rw [DeviceRegistry.boundTo_of_get hget, DriverRegistry.lists_of_get hdriver] at hsides
      rw [hdevices _ _ hget, hname, ← hsides]
      exact (and_iff_right hne).symm
    · intro name device hget hne
      obtain ⟨driver, hdriver, -⟩ := (h name _).mp ⟨hne, device, hget, rfl⟩
      exact Dict.mem_of_get? hdriver
    · intro driverName driver name hdriver hmem
      obtain ⟨-, device, hget, -⟩ := (h name _).mpr ⟨driver, hdriver, hmem⟩
      exact Dict.mem_of_get? hget
    · intro name first second hfirst hsecond
      exact DeviceRegistry.boundTo_unique ((h _ _).mpr hfirst) ((h _ _).mpr hsecond)

/-- Both registries keep their objects under the objects' names, and those of drivers
satisfy `P`. -/
structure Filed (P : Str → Prop) (s : DriverCore) : Prop where
  devices : s.devices.Keyed
  drivers : s.drivers.Filed P

def Keyed (s : DriverCore) : Prop :=
  s.Filed (· ≠ [])

theorem WellFormed.keyed {s : DriverCore} (h : s.WellFormed) : s.Keyed :=
  ⟨h.devices, h.drivers.keyed⟩

theorem freeFor_iff {s : DriverCore} (hall : s.Matches) (name driverName : Str) :
    s.FreeFor name driverName ↔
      ∀ other, s.drivers.Lists other name → other = driverName := by
  constructor
  · intro hfree other hlists
    obtain ⟨hne, device, hget, rfl⟩ := (hall name other).mpr hlists
    exact (hfree device hget).resolve_left hne
  · intro hfree device hget
    by_cases hne : device.boundDriver = []
    · exact Or.inl hne
    · exact Or.inr (hfree _ ((hall name _).mp ⟨hne, device, hget, rfl⟩))

theorem bind_eq {s : DriverCore} {driverName : Str} (h : driverName ∈ s.drivers.drivers)
    (device : Device) :
    s.step (.bind driverName device) =
      ⟨s.drivers.setList driverName fun names =>
          if device.name ∈ names then names else names ++ [device.name],
        s.devices.setBound device.name driverName⟩ := by
  obtain ⟨driver, hget⟩ := Dict.mem_iff_exists.mp h
  simp only [step, DriverRegistry.bind, hget]
  rfl

theorem bind_of_not_mem {s : DriverCore} {driverName : Str}
    (h : driverName ∉ s.drivers.drivers) (device : Device) :
    s.step (.bind driverName device) = s := by
  simp only [step, DriverRegistry.bind, Dict.get?_eq_none.mpr h]
  rfl

theorem remove_eq {s : DriverCore} {driverName : Str} (h : driverName ∈ s.drivers.drivers)
    (deviceName : Str) :
    s.step (.remove driverName deviceName) =
      ⟨s.drivers.setList driverName fun names => names.erase deviceName,
        s.devices.setBound deviceName []⟩ := by
  obtain ⟨driver, hget⟩ := Dict.mem_iff_exists.mp h
  simp only [step, DriverRegistry.remove, hget]
  rfl

theorem remove_of_not_mem {s : DriverCore} {driverName : Str}
    (h : driverName ∉ s.drivers.drivers) (deviceName : Str) :
    s.step (.remove driverName deviceName) = s := by
  simp only [step, DriverRegistry.remove, Dict.get?_eq_none.mpr h]
  rfl

namespace Filed

variable {P : Str → Prop} {s : DriverCore}

theorem bind (h : s.Filed P) (driverName : Str) (device : Device) :
    (s.step (.bind driverName device)).Filed P := by
  by_cases hmem : driverName ∈ s.drivers.drivers
  · rw [bind_eq hmem]
    exact ⟨DeviceRegistry.keyed_setBound h.devices _ _, h.drivers.setList _ _⟩
  · rw [bind_of_not_mem hmem]
    exact h

theorem remove (h : s.Filed P) (driverName deviceName : Str) :
    (s.step (.remove driverName deviceName)).Filed P := by
  by_cases hmem : driverName ∈ s.drivers.drivers
  · rw [remove_eq hmem]
    exact ⟨DeviceRegistry.keyed_setBound h.devices _ _, h.drivers.setList _ _⟩
  · rw [remove_of_not_mem hmem]
    exact h

theorem probeOne {both : DriverRegistry × DeviceRegistry} (h : (ofPair both).Filed P)
    (name : Str) : (ofPair (DriverRegistry.probeOne both name)).Filed P := by
  unfold DriverRegistry.probeOne
  split
  · exact h
  · rename_i device _
    split
    · exact h
    · split
      · exact h
      · rename_i driver _
        exact h.bind driver.name device

theorem probeAll (h : s.Filed P) : (s.step .probeAll).Filed P :=
  List.foldlRecOn (motive := fun both => (ofPair both).Filed P) _ _ h fun _ hboth name _ =>
    hboth.probeOne name

theorem step (h : s.Filed P) (op : Op)
    (hnamed : ∀ driver, op = .registerDriver driver → P driver.name) : (s.step op).Filed P := by
  cases op with
  | registerDriver driver => exact ⟨h.devices, h.drivers.register (hnamed driver rfl)⟩
  | unregisterDriver name => exact ⟨h.devices, Dict.forall_get?_erase h.drivers name⟩
  | bind driverName device => exact h.bind driverName device
  | remove driverName deviceName => exact h.remove driverName deviceName
  | probeAll => exact h.probeAll
  | registerDevice device => exact ⟨DeviceRegistry.keyed_register h.devices device, h.drivers⟩
  | unregisterDevice name => exact ⟨DeviceRegistry.keyed_unregister h.devices name, h.drivers⟩

theorem keyed (h : s.Filed P) (hnames : ∀ name ∈ s.drivers.drivers, name ≠ []) : s.Keyed where
  devices := h.devices
  drivers name driver hget :=
    ⟨(h.drivers name driver hget).1, hnames name (Dict.mem_of_get? hget)⟩

end Filed

theorem matches_registerDriver {s : DriverCore} (hall : s.Matches) (driver : Driver) :
    (s.step (.registerDriver driver)).Matches ↔ s.Permits (.registerDriver driver) := by
  by_cases hmem : driver.name ∈ s.drivers.drivers
  · have hsame : s.step (.registerDriver driver) = s := by
      change (⟨s.drivers.register driver, s.devices⟩ : DriverCore) = s
      unfold DriverRegistry.register
      rw [if_pos hmem]
    rw [hsame]
    exact iff_of_true hall fun hfresh => (hfresh hmem).elim
  · have hlists := DriverRegistry.lists_register hmem
    constructor
    · intro hafter _
      rw [List.eq_nil_iff_forall_not_mem]
      intro name hname
      have hbound := (hafter name driver.name).mpr
        ((hlists _ _).mpr (Or.inr ⟨rfl, hname⟩))
      exact DriverRegistry.not_lists_of_not_mem hmem name ((hall _ _).mp hbound)
    · intro hop name driverName
      refine (hall name driverName).trans (Iff.trans ?_ (hlists driverName name).symm)
      simp [hop hmem]

theorem matches_unregisterDriver {s : DriverCore} (hall : s.Matches) (removed : Str) :
    (s.step (.unregisterDriver removed)).Matches ↔ s.Permits (.unregisterDriver removed) := by
  have hlists := s.drivers.lists_unregister removed
  constructor
  · intro hafter driver hget
    rw [List.eq_nil_iff_forall_not_mem]
    intro name hname
    have hbound := (hall name removed).mpr ⟨driver, hget, hname⟩
    exact ((hlists _ _).mp ((hafter name removed).mp hbound)).1 rfl
  · intro hop name driverName
    refine (hall name driverName).trans (Iff.trans ?_ (hlists driverName name).symm)
    refine (and_iff_right_of_imp ?_).symm
    rintro ⟨driver, hget, hname⟩ rfl
    rw [hop driver hget] at hname
    cases hname

theorem matches_registerDevice {s : DriverCore} (hall : s.Matches) (device : Device) :
    (s.step (.registerDevice device)).Matches ↔ s.Permits (.registerDevice device) := by
  by_cases hmem : device.name ∈ s.devices.devices
  · have hsame : s.step (.registerDevice device) = s := by
      change (⟨s.drivers, s.devices.register device⟩ : DriverCore) = s
      unfold DeviceRegistry.register
      rw [if_pos hmem]
    rw [hsame]
    exact iff_of_true hall fun hfresh => (hfresh hmem).elim
  · have hbound := DeviceRegistry.register_of_not_mem hmem
    constructor
    · intro hafter _
      by_contra hne
      have hlists := (hafter device.name device.boundDriver).mp
        ((hbound _ _).mpr (Or.inr ⟨rfl, hne, rfl⟩))
      have hget : s.devices.get device.name = none := Dict.get?_eq_none.mpr hmem
      exact DeviceRegistry.not_boundTo_of_get hget _ ((hall _ _).mpr hlists)
    · intro hop name driverName
      refine (hbound name driverName).trans (Iff.trans ?_ (hall name driverName))
      rw [hop hmem]
      refine or_iff_left ?_
      rintro ⟨-, hne, rfl⟩
      exact hne rfl

theorem matches_unregisterDevice {s : DriverCore} (hall : s.Matches) (removed : Str) :
    (s.step (.unregisterDevice removed)).Matches ↔ s.Permits (.unregisterDevice removed) := by
  have hbound := s.devices.boundTo_unregister removed
  constructor
  · intro hafter device hget
    by_contra hne
    have hlists := (hall removed device.boundDriver).mp ⟨hne, device, hget, rfl⟩
    exact ((hbound _ _).mp ((hafter removed device.boundDriver).mpr hlists)).1 rfl
  · intro hop name driverName
    refine (hbound name driverName).trans (Iff.trans ?_ (hall name driverName))
    refine and_iff_right_of_imp ?_
    rintro ⟨hne, device, hget, rfl⟩ rfl
    exact hne (hop device hget)

theorem matches_bind {s : DriverCore} (h : s.WellFormed) (hall : s.Matches)
    (driverName : Str) (device : Device) :
    (s.step (.bind driverName device)).Matches ↔ s.Permits (.bind driverName device) := by
  by_cases hmem : driverName ∈ s.drivers.drivers
  · rw [bind_eq hmem]
    have hlists := DriverRegistry.lists_append hmem device.name
    have hbound := s.devices.boundTo_setBound device.name driverName
    constructor
    · intro hafter _
      have hlast := (hafter device.name driverName).mpr ((hlists _ _).mpr (Or.inl ⟨rfl, rfl⟩))
      rw [hbound, if_pos rfl] at hlast
      refine ⟨hlast.1, (freeFor_iff hall _ _).mpr fun other hother => ?_⟩
      -- a second driver still lists the device, which names the new one only
      have hold := (hafter device.name other).mpr ((hlists _ _).mpr (Or.inr hother))
      rw [hbound, if_pos rfl] at hold
      exact hold.2.2
    · intro hop name other
      obtain ⟨hdevice, hfree⟩ := hop hmem
      rw [freeFor_iff hall] at hfree
      refine (hbound name other).trans (Iff.trans ?_ (hlists other name).symm)
      obtain ⟨driver, hget⟩ := Dict.mem_iff_exists.mp hmem
      have hne := (h.drivers.keyed _ _ hget).2
      by_cases hname : name = device.name
      · subst hname
        rw [if_pos rfl]
        constructor
        · rintro ⟨-, -, hother⟩
          exact Or.inl ⟨hother, rfl⟩
        · rintro (⟨hother, -⟩ | hother)
          · exact ⟨hdevice, hne, hother⟩
          · exact ⟨hdevice, hne, hfree other hother⟩
      · rw [if_neg hname, hall]
        simp [hname]
  · rw [bind_of_not_mem hmem]
    exact iff_of_true hall fun hin => (hmem hin).elim

theorem matches_remove {s : DriverCore} (h : s.WellFormed) (hall : s.Matches)
    (driverName deviceName : Str) :
    (s.step (.remove driverName deviceName)).Matches ↔
      s.Permits (.remove driverName deviceName) := by
  by_cases hmem : driverName ∈ s.drivers.drivers
  · rw [remove_eq hmem]
    have hlists := DriverRegistry.lists_erase h.drivers driverName deviceName
    have hbound := s.devices.boundTo_setBound deviceName []
    constructor
    · intro hafter _
      refine (freeFor_iff hall _ _).mpr fun other hother => ?_
      by_contra hne
      -- the other driver keeps the device, which is unbound now
      have hold := (hafter deviceName other).mpr
        ((hlists _ _).mpr ⟨hother, fun hsame => hne hsame.1⟩)
      rw [hbound, if_pos rfl] at hold
      exact hold.2.1 rfl
    · intro hop name other
      have hfree := (freeFor_iff hall _ _).mp (hop hmem)
      refine (hbound name other).trans (Iff.trans ?_ (hlists other name).symm)
      by_cases hname : name = deviceName
      · subst hname
        rw [if_pos rfl]
        refine iff_of_false (fun hbound => hbound.2.1 rfl) ?_
        rintro ⟨hother, hkept⟩
        exact hkept ⟨hfree other hother, rfl⟩
      · rw [if_neg hname, hall]
        simp [hname]
  · rw [remove_of_not_mem hmem]
    exact iff_of_true hall fun hin => (hmem hin).elim

theorem WellFormed.bind {s : DriverCore} (h : s.WellFormed) (driverName : Str)
    (device : Device) : (s.step (.bind driverName device)).WellFormed := by
  by_cases hmem : driverName ∈ s.drivers.drivers
  · have hnodup : ∀ names : List Str, names.Nodup →
        (if device.name ∈ names then names else names ++ [device.name]).Nodup := by
      intro names hnames
      split
      · exact hnames
      · rename_i hnew
        rw [← List.concat_eq_append]
        exact hnames.concat hnew
    rw [bind_eq hmem]
    exact ⟨DeviceRegistry.keyed_setBound h.devices _ _, h.drivers.setList _ hnodup⟩
  · rw [bind_of_not_mem hmem]
    exact h

theorem WellFormed.remove {s : DriverCore} (h : s.WellFormed) (driverName deviceName : Str) :
    (s.step (.remove driverName deviceName)).WellFormed := by
  by_cases hmem : driverName ∈ s.drivers.drivers
  · rw [remove_eq hmem]
    exact ⟨DeviceRegistry.keyed_setBound h.devices _ _,
      h.drivers.setList _ fun names hnames => hnames.erase deviceName⟩
  · rw [remove_of_not_mem hmem]
    exact h

theorem probeOne_keeps {both : DriverRegistry × DeviceRegistry}
    (h : (ofPair both).WellFormed) (hall : (ofPair both).Matches) (name : Str) :
    (ofPair (DriverRegistry.probeOne both name)).WellFormed ∧
      (ofPair (DriverRegistry.probeOne both name)).Matches := by
  unfold DriverRegistry.probeOne
  split
  · exact ⟨h, hall⟩
  · rename_i device hget
    split
    · exact ⟨h, hall⟩
    · rename_i hbound
      split
      · exact ⟨h, hall⟩
      · rename_i driver hprobe
        have hunbound : device.boundDriver = [] := not_not.mp hbound
        have hname : device.name = name := h.devices name device hget
        refine ⟨h.bind driver.name device, (matches_bind h hall driver.name device).mpr ?_⟩
        intro _
        rw [hname]
        refine ⟨Dict.mem_of_get? hget, fun other hother => Or.inl ?_⟩
        cases hget.symm.trans hother
        exact hunbound

theorem probeAll_keeps {s : DriverCore} (h : s.WellFormed) (hall : s.Matches) :
    (s.step .probeAll).WellFormed ∧ (s.step .probeAll).Matches := by
  change (ofPair (List.foldl _ _ _)).WellFormed ∧ (ofPair (List.foldl _ _ _)).Matches
  refine List.foldlRecOn
    (motive := fun both => (ofPair both).WellFormed ∧ (ofPair both).Matches) _ _ ⟨h, hall⟩ ?_
  rintro both ⟨hformed, hmatches⟩ name -
  exact probeOne_keeps hformed hmatches name

theorem matches_step_iff {s : DriverCore} (h : s.WellFormed) (hall : s.Matches) (op : Op) :
    (s.step op).Matches ↔ s.Permits op := by
  cases op with
  | registerDriver driver => exact matches_registerDriver hall driver
  | unregisterDriver name => exact matches_unregisterDriver hall name
  | bind driverName device => exact matches_bind h hall driverName device
  | remove driverName deviceName => exact matches_remove h hall driverName deviceName
  | probeAll => exact iff_of_true (probeAll_keeps h hall).2 trivial
  | registerDevice device => exact matches_registerDevice hall device
  | unregisterDevice name => exact matches_unregisterDevice hall name

theorem wellFormed_step {s : DriverCore} (h : s.WellFormed) (hall : s.Matches) (op : Op)
    (hnamed : s.Named op) (hop : s.Permits op) : (s.step op).WellFormed := by
  cases op with
  | registerDriver driver =>
      refine ⟨h.devices, h.drivers.register hnamed fun hfresh => ?_⟩
      rw [hop hfresh]
      exact List.nodup_nil
  | unregisterDriver name => exact ⟨h.devices, h.drivers.unregister name⟩
  | bind driverName device => exact h.bind driverName device
  | remove driverName deviceName => exact h.remove driverName deviceName
  | probeAll => exact (probeAll_keeps h hall).1
  | registerDevice device => exact ⟨DeviceRegistry.keyed_register h.devices device, h.drivers⟩
  | unregisterDevice name => exact ⟨DeviceRegistry.keyed_unregister h.devices name, h.drivers⟩

theorem agrees_step_iff {s : DriverCore} (h : s.WellFormed) (hagrees : s.Agrees) (op : Op)
    (hnamed : s.Named op) : (s.step op).Agrees ↔ s.Permits op := by
  have hall := (agrees_iff h.devices h.drivers.keyed).mp hagrees
  obtain ⟨hdevices, hdrivers⟩ := h.keyed.step op fun driver hop => by
    subst hop
    exact hnamed
  rw [agrees_iff hdevices hdrivers]
  exact matches_step_iff h hall op

theorem wellFormed_init : init.WellFormed := by
  refine ⟨?_, ?_, ?_⟩ <;> intro name object hget <;> cases hget

theorem filed_run (ops : List Op) : (Run.run step init ops).Filed fun _ => True := by
  refine Run.run_invariant (fun s op h => h.step op fun _ _ => trivial) ?_ ops
  refine ⟨wellFormed_init.devices, ?_⟩
  intro name driver hget
  cases hget

theorem agrees_init : init.Agrees := by
  refine (agrees_iff wellFormed_init.devices wellFormed_init.drivers.keyed).mpr ?_
  intro name driverName
  constructor
  · rintro ⟨-, device, hget, -⟩
    cases hget
  · rintro ⟨driver, hget, -⟩
    cases hget

/-- The two sides of every binding agree throughout a run exactly when all of its steps are
permitted. -/
theorem always_agrees_iff {ops : List Op} (hnamed : Run.Guarded step Named init ops) :
    Run.Always step Agrees init ops ↔ Run.Guarded step Permits init ops := by
  refine Run.always_iff_guarded_within (I := WellFormed) ?_ ?_ ?_ wellFormed_init
    agrees_init hnamed
  · intro s op h hagrees hnamed hop
    have hall := (agrees_iff h.devices h.drivers.keyed).mp hagrees
    exact wellFormed_step h hall op hnamed hop
  · intro s op h hagrees hnamed hop
    exact (agrees_step_iff h hagrees op hnamed).mpr hop
  · intro s op h hagrees hnamed hop hafter
    exact hop ((agrees_step_iff h hagrees op hnamed).mp hafter)

/-- A driver that is unregistered leaves its device with the name of no driver. -/
theorem driver_left_behind :
    let disk : Device := { name := "sda".toList, deviceClass := .block }
    let driver : Driver := { name := "ata".toList, supportedDevices := ["sda".toList] }
    let calls : List Op :=
      [.registerDriver driver, .registerDevice disk, .probeAll,
        .unregisterDriver "ata".toList]
    Run.Guarded step Named init calls ∧ ¬ (Run.run step init calls).Agrees := by
  intro disk driver calls
  have hname : "ata".toList ≠ [] := by decide
  refine ⟨⟨hname, trivial, trivial, trivial, trivial⟩, fun hagrees => ?_⟩
  have hget : (Run.run step init calls).devices.get "sda".toList =
      some { disk with boundDriver := "ata".toList } := by decide
  have hmem := hagrees.named hget (by decide)
  exact absurd hmem (by decide)

theorem always_agrees_probe :
    let disk : Device := { name := "sda".toList, deviceClass := .block }
    let driver : Driver := { name := "ata".toList, supportedDevices := ["sda".toList] }
    let calls : List Op :=
      [.registerDriver driver, .registerDevice disk, .probeAll,
        .remove "ata".toList "sda".toList, .unregisterDriver "ata".toList]
    Run.Guarded step Named init calls ∧ Run.Always step Agrees init calls := by
  intro disk driver calls
  have hname : "ata".toList ≠ [] := by decide
  have hnamed : Run.Guarded step Named init calls :=
    ⟨hname, trivial, trivial, trivial, trivial, trivial⟩
  refine ⟨hnamed, (always_agrees_iff hnamed).mpr ⟨fun _ => rfl, fun _ => rfl, trivial, ?_, ?_,
    trivial⟩⟩
  · intro _ device hget
    cases hget
    exact Or.inr rfl
  · intro driver' hget
    cases hget
    rfl

end DriverCore

end ComputeKernel.Drivers
