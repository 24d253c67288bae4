import ComputeKernel.Lib.Run
import ComputeKernel.Memory.Virtual

/-!
# Page frames and VMAs

Frames are taken when a VMA is mapped and never given back, so the frames in use are
those of the mapped VMAs exactly until one of these VMAs is dropped.
-/

namespace ComputeKernel.Memory

open Lib Lib.Run

namespace PhysicalMemoryManager

theorem used_add_free (m : PhysicalMemoryManager) :
    m.usedPages + m.freePages = m.pages.length := by
  unfold usedPages freePages
  rw [List.length_eq_countP_add_countP (fun page => page.inUse)]
  simp

theorem freePages_assign_front (m : PhysicalMemoryManager) {n : Nat} (h : n ≤ m.freePages)
    (pid : Int) :
    (m.assign (m.freeFrames.take n) true pid (by simp)).freePages + n = m.freePages := by
  have hsplit := (List.take_append_drop n m.freeFrames).symm
  have hrest := freeFrames_assign_front hsplit pid
  rw [← freeFrames_length, hrest, List.length_drop, freeFrames_length]
  omega

theorem usedPages_assign_front (m : PhysicalMemoryManager) {n : Nat} (h : n ≤ m.freePages)
    (pid : Int) :
    (m.assign (m.freeFrames.take n) true pid (by simp)).usedPages = m.usedPages + n := by
  have hold := m.used_add_free
  have hnew := (m.assign (m.freeFrames.take n) true pid (by simp)).used_add_free
  have hfree := m.freePages_assign_front h pid
  have hlength : (m.assign (m.freeFrames.take n) true pid (by simp)).pages.length =
      m.pages.length := List.length_map _
  omega

theorem usedPages_init (totalPages : Nat) : (init totalPages).usedPages = 0 := by
  unfold usedPages
  rw [List.countP_eq_zero]
  intro page hpage
  obtain ⟨i, -, rfl⟩ := List.mem_map.mp hpage
  simp

end PhysicalMemoryManager

namespace VirtualMemoryManager

theorem pagesNeeded_pos_iff {size : Int} : 0 < pagesNeeded size ↔ 0 < size := by
  unfold pagesNeeded pageSize
  omega

def Fits (vmm : VirtualMemoryManager) (pid size : Int) : Prop :=
  pid ∈ vmm.addressSpaces ∧ 0 < size ∧ (pagesNeeded size).toNat ≤ vmm.pmm.freePages

instance (vmm : VirtualMemoryManager) (pid size : Int) : Decidable (vmm.Fits pid size) :=
  inferInstanceAs (Decidable (_ ∧ _))

theorem mapPages_of_not_fits {vmm : VirtualMemoryManager} {pid size : Int}
    (h : ¬ vmm.Fits pid size) (vaddr : Int) (flags name : Str) :
    vmm.mapPages pid vaddr size flags name = (false, vmm) := by
  by_cases hframes : (pagesNeeded size).toNat ≤ vmm.pmm.freePages
  · cases hspace : vmm.addressSpaces.get? pid with
    | none => simp [mapPages, hspace]
    | some space =>
        -- no frame is asked for
        have hsize : (pagesNeeded size).toNat = 0 := by
          have hmem := Dict.mem_of_get? hspace
          have hneg : ¬ 0 < size := fun hpos => h ⟨hmem, hpos, hframes⟩
          rw [← pagesNeeded_pos_iff] at hneg
          omega
        obtain ⟨pages, halloc, hpages⟩ := vmm.pmm.allocPages_of_le pid hframes
        rw [hsize, List.take_zero, List.map_eq_nil_iff] at hpages
        simp [mapPages, hspace, halloc, hsize, hpages]
  · exact mapPages_of_lt (Nat.lt_of_not_le hframes) pid vaddr flags name

theorem mapPages_of_fits {vmm : VirtualMemoryManager} {pid size : Int}
    (h : vmm.Fits pid size) (vaddr : Int) (flags name : Str) :
    ∃ space pmm, vmm.addressSpaces.get? pid = some space ∧
      vmm.mapPages pid vaddr size flags name =
        (true, ⟨pmm, vmm.addressSpaces.set pid (space.map vaddr size flags name)⟩) ∧
      pmm.usedPages = vmm.pmm.usedPages + (pagesNeeded size).toNat ∧
      pmm.freePages + (pagesNeeded size).toNat = vmm.pmm.freePages := by
  obtain ⟨hmem, hsize, hframes⟩ := h
  obtain ⟨space, hspace⟩ := Dict.mem_iff_exists.mp hmem
  exact ⟨space, _, hspace, mapPages_of_le hspace hsize hframes vaddr flags name,
    vmm.pmm.usedPages_assign_front hframes pid, vmm.pmm.freePages_assign_front hframes pid⟩

theorem mapPages_fst (vmm : VirtualMemoryManager) (pid vaddr size : Int) (flags name : Str) :
    (vmm.mapPages pid vaddr size flags name).1 = decide (vmm.Fits pid size) := by
  by_cases h : vmm.Fits pid size
  · obtain ⟨space, pmm, -, hmap, -⟩ := mapPages_of_fits h vaddr flags name
    rw [hmap, decide_eq_true h]
  · rw [mapPages_of_not_fits h, decide_eq_false h]

theorem unmapPages_pmm (vmm : VirtualMemoryManager) (pid vaddr : Int) :
    (vmm.unmapPages pid vaddr).2.pmm = vmm.pmm := by
  unfold unmapPages
  cases vmm.addressSpaces.get? pid with
  | none => rfl
  | some space => rfl

/-! ## Calls -/

inductive Op
  | create (pid : Int)
  | destroy (pid : Int)
  | map (pid vaddr size : Int) (flags name : Str)
  | unmap (pid vaddr : Int)
  deriving DecidableEq

def step (vmm : VirtualMemoryManager) : Op → VirtualMemoryManager
  | .create pid => vmm.createAddressSpace pid
  | .destroy pid => vmm.destroyAddressSpace pid
  | .map pid vaddr size flags name => (vmm.mapPages pid vaddr size flags name).2
  | .unmap pid vaddr => (vmm.unmapPages pid vaddr).2

end VirtualMemoryManager

/-! ## The VMAs that were mapped -/

/-- The manager with the VMAs, and their owners, that a successful `mapPages` added and
that are still in an address space. -/
structure Ledger where
  vmm : VirtualMemoryManager
  mapped : List (Int × VirtualMemoryArea)

namespace Ledger

def start (totalPages : Nat) : Ledger :=
  ⟨VirtualMemoryManager.init (PhysicalMemoryManager.init totalPages), []⟩

/-- The call drops the entry: its address space is replaced or destroyed, or it starts
at the address that is unmapped. -/
def Drops : VirtualMemoryManager.Op → Int × VirtualMemoryArea → Prop
  | .create pid, entry => entry.1 = pid
  | .destroy pid, entry => entry.1 = pid
  | .map _ _ _ _ _, _ => False
  | .unmap pid vaddr, entry => entry.1 = pid ∧ entry.2.start = vaddr

instance : ∀ (op : VirtualMemoryManager.Op) (entry : Int × VirtualMemoryArea),
    Decidable (Drops op entry)
  | .create _, _ => inferInstanceAs (Decidable (_ = _))
  | .destroy _, _ => inferInstanceAs (Decidable (_ = _))
  | .map _ _ _ _ _, _ => isFalse id
  | .unmap _ _, _ => inferInstanceAs (Decidable (_ ∧ _))

def added (vmm : VirtualMemoryManager) : VirtualMemoryManager.Op → List (Int × VirtualMemoryArea)
  | .map pid vaddr size flags name =>
      if (vmm.mapPages pid vaddr size flags name).1 then [(pid, ⟨vaddr, vaddr + size, flags, name⟩)]
      else []
  | _ => []

def step (l : Ledger) (op : VirtualMemoryManager.Op) : Ledger where
  vmm := l.vmm.step op
  mapped := l.mapped.filter (fun entry => ¬ Drops op entry) ++ added l.vmm op

def frames : List (Int × VirtualMemoryArea) → Int
  | [] => 0
  | entry :: entries => VirtualMemoryManager.pagesNeeded entry.2.size + frames entries

def Balanced (l : Ledger) : Prop :=
  (l.vmm.pmm.usedPages : Int) = frames l.mapped

def KeepsMapped (l : Ledger) (op : VirtualMemoryManager.Op) : Prop :=
  ∀ entry ∈ l.mapped, ¬ Drops op entry

def Positive (l : Ledger) : Prop :=
  ∀ entry ∈ l.mapped, 0 < VirtualMemoryManager.pagesNeeded entry.2.size

/-! ## Sums of frames -/

theorem frames_append (first second : List (Int × VirtualMemoryArea)) :
    frames (first ++ second) = frames first + frames second := by
  induction first with
  | nil => simp [frames]
  | cons entry entries ih =>
      rw [List.cons_append, frames, frames, ih]
      omega

theorem frames_filter_lt {entries : List (Int × VirtualMemoryArea)}
    (hpos : ∀ entry ∈ entries, 0 < VirtualMemoryManager.pagesNeeded entry.2.size)
    (p : Int × VirtualMemoryArea → Bool) :
    frames (entries.filter p) ≤ frames entries ∧
      (∀ entry ∈ entries, p entry = false → frames (entries.filter p) < frames entries) := by
  induction entries with
  | nil => exact ⟨Int.le_refl _, by simp⟩
  | cons first entries ih =>
      obtain ⟨hle, hlt⟩ := ih fun entry hmem => hpos entry (List.mem_cons_of_mem _ hmem)
      have hfirst := hpos first List.mem_cons_self
      cases hp : p first with
      | true =>
          rw [List.filter_cons_of_pos hp, frames, frames]
          refine ⟨by omega, ?_⟩
          intro entry hmem hdropped
          rcases List.mem_cons.mp hmem with rfl | hmem
          · rw [hp] at hdropped
            cases hdropped
          · have := hlt entry hmem hdropped
            omega
      | false =>
          rw [List.filter_cons_of_neg (by simp [hp]), frames]
          exact ⟨by omega, fun entry hmem hdropped => by omega⟩

/-! ## One call -/

theorem filter_of_keepsMapped {l : Ledger} {op : VirtualMemoryManager.Op}
    (h : l.KeepsMapped op) : l.mapped.filter (fun entry => ¬ Drops op entry) = l.mapped := by
  apply List.filter_eq_self.mpr
  intro entry hmem
  exact decide_eq_true (h entry hmem)

theorem usedPages_step (l : Ledger) (op : VirtualMemoryManager.Op) :
    ((l.step op).vmm.pmm.usedPages : Int) = l.vmm.pmm.usedPages + frames (added l.vmm op) := by
  cases op with
  | create pid => exact (Int.add_zero _).symm
  | destroy pid => exact (Int.add_zero _).symm
  | unmap pid vaddr =>
      change ((l.vmm.unmapPages pid vaddr).2.pmm.usedPages : Int) = _
      rw [VirtualMemoryManager.unmapPages_pmm]
      exact (Int.add_zero _).symm
  | map pid vaddr size flags name =>
      change ((l.vmm.mapPages pid vaddr size flags name).2.pmm.usedPages : Int) = _
      by_cases hfits : l.vmm.Fits pid size
      · obtain ⟨space, pmm, -, hmap, hused, -⟩ :=
          VirtualMemoryManager.mapPages_of_fits hfits vaddr flags name
        have hpos := VirtualMemoryManager.pagesNeeded_pos_iff.mpr hfits.2.1
        have hsize : vaddr + size - vaddr = size := by omega
        simp only [added, hmap, if_true, frames, VirtualMemoryArea.size, hsize]
        omega
      · have hmap := VirtualMemoryManager.mapPages_of_not_fits hfits vaddr flags name
        simp [added, hmap, frames]

theorem positive_step (l : Ledger) (op : VirtualMemoryManager.Op) (h : l.Positive) :
    (l.step op).Positive := by
  intro entry hmem
  rcases List.mem_append.mp hmem with hold | hnew
  · exact h entry (List.mem_of_mem_filter hold)
  · cases op with
    | map pid vaddr size flags name =>
        simp only [added] at hnew
        split at hnew
        · rename_i hmapped
          rw [List.mem_singleton.mp hnew]
          rw [VirtualMemoryManager.mapPages_fst] at hmapped
          have hfits := of_decide_eq_true hmapped
          have hsize : vaddr + size - vaddr = size := by omega
          rw [VirtualMemoryArea.size, VirtualMemoryManager.pagesNeeded_pos_iff, hsize]
          exact hfits.2.1
        · cases hnew
    | _ => cases hnew

theorem balanced_step (l : Ledger) (op : VirtualMemoryManager.Op) (h : l.Balanced)
    (hop : l.KeepsMapped op) : (l.step op).Balanced := by
  have hused := l.usedPages_step op
  unfold Balanced at h ⊢
  rw [hused, h, step, frames_append, filter_of_keepsMapped hop]

/-- The frames of a dropped VMA stay in use. -/
theorem not_balanced_step (l : Ledger) (op : VirtualMemoryManager.Op) (hpos : l.Positive)
    (h : l.Balanced) (hop : ¬ l.KeepsMapped op) : ¬ (l.step op).Balanced := by
  obtain ⟨entry, hmem, hdrops⟩ : ∃ entry ∈ l.mapped, Drops op entry := by
    simpa [KeepsMapped] using hop
  have hlt := (frames_filter_lt hpos fun entry => ¬ Drops op entry).2 entry hmem
    (by simpa using hdrops)
  have hused := l.usedPages_step op
  have hsum : frames (l.step op).mapped =
      frames (l.mapped.filter fun entry => ¬ Drops op entry) + frames (added l.vmm op) :=
    frames_append _ _
  unfold Balanced at h ⊢
  omega

/-! ## The entries are the mapped VMAs -/

def mappedBy (l : Ledger) (pid : Int) : List VirtualMemoryArea :=
  (l.mapped.filter fun entry => entry.1 = pid).map Prod.snd

/-- An address space has some of the VMAs it was created with, then the entries of its
process; without an address space there are no entries. -/
structure Faithful (l : Ledger) : Prop where
  areas : ∀ pid space, l.vmm.addressSpaces.get? pid = some space →
    ∃ rest, rest.Sublist (VirtualMemoryManager.newAddressSpace pid).areas ∧
      space.areas = rest ++ l.mappedBy pid
  absent : ∀ pid, pid ∉ l.vmm.addressSpaces → l.mappedBy pid = []

theorem mappedBy_step {l : Ledger} {op : VirtualMemoryManager.Op} {pid : Int}
    (hadded : ∀ entry ∈ added l.vmm op, entry.1 ≠ pid) :
    (l.step op).mappedBy pid =
      (l.mappedBy pid).filter fun area => ¬ Drops op (pid, area) := by
  have hnone : (added l.vmm op).filter (fun entry => entry.1 = pid) = [] := by
    apply List.filter_eq_nil_iff.mpr
    intro entry hmem
    simpa using hadded entry hmem
  unfold mappedBy
  rw [step, List.filter_append, hnone, List.append_nil, List.filter_filter, List.filter_map,
    List.filter_filter]
  congr 1
  apply List.filter_congr
  rintro ⟨owner, area⟩ -
  by_cases howner : owner = pid
  · simp [howner]
  · simp [howner]

def target : VirtualMemoryManager.Op → Int
  | .create pid => pid
  | .destroy pid => pid
  | .map pid _ _ _ _ => pid
  | .unmap pid _ => pid

theorem added_owner {vmm : VirtualMemoryManager} {op : VirtualMemoryManager.Op}
    {entry : Int × VirtualMemoryArea} (h : entry ∈ added vmm op) : entry.1 = target op := by
  cases op with
  | map pid vaddr size flags name =>
      simp only [added] at h
      split at h
      · rw [List.mem_singleton.mp h]
        rfl
      · cases h
  | _ => cases h

theorem target_of_drops {op : VirtualMemoryManager.Op} {entry : Int × VirtualMemoryArea}
    (h : Drops op entry) : entry.1 = target op := by
  cases op with
  | create pid => exact h
  | destroy pid => exact h
  | map pid vaddr size flags name => exact h.elim
  | unmap pid vaddr => exact h.1

theorem mappedBy_step_target {l : Ledger} {op : VirtualMemoryManager.Op}
    (hadded : added l.vmm op = []) :
    (l.step op).mappedBy (target op) =
      (l.mappedBy (target op)).filter fun area => ¬ Drops op (target op, area) := by
  apply mappedBy_step
  intro entry hmem
  rw [hadded] at hmem
  cases hmem

theorem other_step (l : Ledger) {op : VirtualMemoryManager.Op} {other : Int}
    (hne : other ≠ target op) :
    (l.step op).vmm.addressSpaces.get? other = l.vmm.addressSpaces.get? other ∧
      (l.step op).mappedBy other = l.mappedBy other := by
  constructor
  · cases op with
    | create pid => exact Dict.get?_set_of_ne _ _ hne
    | destroy pid => exact Dict.get?_erase_of_ne _ hne
    | map pid vaddr size flags name => exact (l.vmm.mapPages_frame hne vaddr size flags name).1
    | unmap pid vaddr => exact (l.vmm.unmapPages_frame hne vaddr).1
  · rw [mappedBy_step]
    · apply List.filter_eq_self.mpr
      intro area _
      apply decide_eq_true
      intro hdrops
      exact hne (target_of_drops hdrops)
    · intro entry hmem
      rw [added_owner hmem]
      exact hne.symm

theorem mappedBy_step_map {l : Ledger} {pid vaddr size : Int} (h : l.vmm.Fits pid size)
    (flags name : Str) :
    (l.step (.map pid vaddr size flags name)).mappedBy pid =
      l.mappedBy pid ++ [⟨vaddr, vaddr + size, flags, name⟩] := by
  have hadded : added l.vmm (.map pid vaddr size flags name) =
      [(pid, ⟨vaddr, vaddr + size, flags, name⟩)] := by
    rw [added, VirtualMemoryManager.mapPages_fst, if_pos (decide_eq_true h)]
  have hkept : l.mapped.filter
      (fun entry => ¬ Drops (.map pid vaddr size flags name) entry) = l.mapped :=
    filter_of_keepsMapped fun _ _ hdrops => hdrops
  unfold mappedBy
  rw [step, hadded, hkept, List.filter_append, List.map_append]
  simp

namespace Faithful

variable {l : Ledger}

theorem of_target (h : Faithful l) {op : VirtualMemoryManager.Op}
    (hareas : ∀ space, (l.step op).vmm.addressSpaces.get? (target op) = some space →
      ∃ rest, rest.Sublist (VirtualMemoryManager.newAddressSpace (target op)).areas ∧
        space.areas = rest ++ (l.step op).mappedBy (target op))
    (habsent : target op ∉ (l.step op).vmm.addressSpaces →
      (l.step op).mappedBy (target op) = []) : Faithful (l.step op) where
  areas := by
    intro pid space hspace
    by_cases hpid : pid = target op
    · rw [hpid] at hspace ⊢
      exact hareas space hspace
    · obtain ⟨hsame, hmapped⟩ := l.other_step hpid
      rw [hmapped]
      exact h.areas pid space (hsame.symm.trans hspace)
  absent := by
    intro pid hpid
    by_cases htarget : pid = target op
    · rw [htarget] at hpid ⊢
      exact habsent hpid
    · obtain ⟨hsame, hmapped⟩ := l.other_step htarget
      rw [hmapped]
      apply h.absent
      rw [← Dict.get?_eq_none] at hpid ⊢
      exact hsame.symm.trans hpid

theorem create (h : Faithful l) (pid : Int) : Faithful (l.step (.create pid)) := by
  apply h.of_target
  · intro space hspace
    have hnew : (l.vmm.addressSpaces.set pid (VirtualMemoryManager.newAddressSpace pid)).get? pid =
        some space := hspace
    rw [Dict.get?_set_self] at hnew
    cases hnew
    refine ⟨_, List.Sublist.refl _, ?_⟩
    rw [mappedBy_step_target rfl]
    simp [Drops, target]
  · intro habsent
    exact absurd (Dict.mem_set.mpr (Or.inl rfl)) habsent

theorem destroy (h : Faithful l) (pid : Int) : Faithful (l.step (.destroy pid)) := by
  apply h.of_target
  · intro space hspace
    have hmem : pid ∈ l.vmm.addressSpaces.erase pid := Dict.mem_of_get? hspace
    exact absurd rfl (Dict.mem_erase.mp hmem).1
  · intro _
    rw [mappedBy_step_target rfl]
    simp [Drops, target]

theorem unmap (h : Faithful l) (pid vaddr : Int) : Faithful (l.step (.unmap pid vaddr)) := by
  have hself : (l.step (.unmap pid vaddr)).mappedBy pid =
      (l.mappedBy pid).filter fun area => ¬ Drops (.unmap pid vaddr) (pid, area) :=
    mappedBy_step_target rfl
  apply h.of_target
  · intro space hspace
    have hmem : pid ∈ l.vmm.addressSpaces :=
      (l.vmm.mem_unmapPages pid vaddr pid).mp (Dict.mem_of_get? hspace)
    obtain ⟨old, hold⟩ := Dict.mem_iff_exists.mp hmem
    have hnew : (l.vmm.unmapPages pid vaddr).2.addressSpaces.get? pid = some space := hspace
    rw [VirtualMemoryManager.get?_unmapPages_self hold] at hnew
    cases hnew
    obtain ⟨rest, hrest, hareas⟩ := h.areas pid old hold
    refine ⟨rest.filter fun area => area.start ≠ vaddr, List.filter_sublist.trans hrest, ?_⟩
    change (old.unmap vaddr).2.areas = _ ++ (l.step (.unmap pid vaddr)).mappedBy pid
    rw [hself, AddressSpace.unmap, hareas, List.filter_append]
    simp [Drops]
  · intro habsent
    have hold : pid ∉ l.vmm.addressSpaces := fun hmem =>
      habsent ((l.vmm.mem_unmapPages pid vaddr pid).mpr hmem)
    change (l.step (.unmap pid vaddr)).mappedBy pid = []
    rw [hself, h.absent pid hold]
    rfl

theorem map (h : Faithful l) (pid vaddr size : Int) (flags name : Str) :
    Faithful (l.step (.map pid vaddr size flags name)) := by
  have hmem := l.vmm.mem_mapPages pid vaddr size flags name pid
  by_cases hfits : l.vmm.Fits pid size
  · apply h.of_target
    · intro space hspace
      obtain ⟨old, pmm, hold, hmap, -⟩ :=
        VirtualMemoryManager.mapPages_of_fits hfits vaddr flags name
      have hnew : (l.vmm.mapPages pid vaddr size flags name).2.addressSpaces.get? pid =
          some space := hspace
      rw [hmap, Dict.get?_set_self] at hnew
      cases hnew
      obtain ⟨rest, hrest, hareas⟩ := h.areas pid old hold
      refine ⟨rest, hrest, ?_⟩
      change _ = rest ++ (l.step _).mappedBy pid
      rw [mappedBy_step_map hfits, AddressSpace.map, hareas, List.append_assoc]
    · intro habsent
      exact absurd (hmem.mpr hfits.1) habsent
  · -- nothing is mapped
    have hmap := VirtualMemoryManager.mapPages_of_not_fits hfits vaddr flags name
    have hstep : l.step (.map pid vaddr size flags name) = l := by
      have hkept : l.mapped.filter
          (fun entry => ¬ Drops (.map pid vaddr size flags name) entry) = l.mapped :=
        filter_of_keepsMapped fun _ _ hdrops => hdrops
      unfold step
      rw [hkept, VirtualMemoryManager.step, added, hmap]
      simp
    rw [hstep]
    exact h

end Faithful

theorem faithful_step (l : Ledger) (op : VirtualMemoryManager.Op) (h : Faithful l) :
    Faithful (l.step op) := by
  cases op with
  | create pid => exact h.create pid
  | destroy pid => exact h.destroy pid
  | map pid vaddr size flags name => exact h.map pid vaddr size flags name
  | unmap pid vaddr => exact h.unmap pid vaddr

theorem faithful_start (totalPages : Nat) : Faithful (start totalPages) where
  areas := by
    intro pid space hspace
    cases hspace
  absent := fun _ _ => rfl

/-- A run of the ledger is one of the manager, with the VMAs that are mapped as entries. -/
theorem faithful_run (totalPages : Nat) (ops : List VirtualMemoryManager.Op) :
    let l := run step (start totalPages) ops
    l.vmm = run VirtualMemoryManager.step (start totalPages).vmm ops ∧ Faithful l :=
  ⟨run_map Ledger.vmm (fun _ _ => rfl) _ ops,
    run_invariant faithful_step (faithful_start totalPages) ops⟩

/-- The frames in use are those of the mapped VMAs throughout a run exactly when no call
drops a VMA that was mapped. -/
theorem always_balanced_iff (totalPages : Nat) (ops : List VirtualMemoryManager.Op) :
    Always step Balanced (start totalPages) ops ↔
      Guarded step KeepsMapped (start totalPages) ops := by
  apply always_iff_guarded_of_invariant positive_step
  · exact fun l op _ => balanced_step l op
  · exact not_balanced_step
  · intro entry hmem
    cases hmem
  · change ((PhysicalMemoryManager.init totalPages).usedPages : Int) = 0
    rw [PhysicalMemoryManager.usedPages_init]
    rfl

/-- One page is mapped and unmapped, and its frame is lost. -/
theorem frame_lost :
    let ops : List VirtualMemoryManager.Op :=
      [.create 1, .map 1 0x10000 4096 "rw-".toList "[mmap]".toList, .unmap 1 0x10000]
    (run step (start 16) ops).vmm.pmm.usedPages = 1 ∧
    (run step (start 16) ops).mapped = [] ∧ ¬ Always step Balanced (start 16) ops := by
  intro ops
  have hused : (run step (start 16) ops).vmm.pmm.usedPages = 1 := by decide
  have hmapped : (run step (start 16) ops).mapped = [] := by decide
  refine ⟨hused, hmapped, ?_⟩
  intro h
  have hend := always_iff_prefixes.mp h ops (List.prefix_refl ops)
  rw [Balanced, hused, hmapped] at hend
  cases hend

end Ledger

end ComputeKernel.Memory
