import Mathlib.Data.List.Nodup
import Mathlib.Data.List.Range

/-!
# Physical memory manager

The frame pool is a list of pages numbered by position.  The manager carries
two facts that all of its operations keep: pages are numbered consecutively,
and a free page has owner 0.
-/

namespace ComputeKernel.Memory

def pageSize : Int := 4096

def kernelBase : Int := 0xFFFF800000000000

def userMax : Int := 0x00007FFFFFFFFFFF

def defaultPhysPages : Nat := 1024

structure Page where
  pfn : Int
  inUse : Bool := false
  ownerPid : Int := 0
  deriving DecidableEq, Repr

@[ext] structure PhysicalMemoryManager where
  pages : List Page
  numbered : pages.map Page.pfn = (List.range pages.length).map fun (i : Nat) => (i : Int)
  unowned : ∀ page ∈ pages, page.inUse = false → page.ownerPid = 0

namespace PhysicalMemoryManager

def init (totalPages : Nat) : PhysicalMemoryManager where
  pages := (List.range totalPages).map fun (i : Nat) => { pfn := i }
  numbered := by simp [Function.comp_def]
  unowned := by
    intro page hpage _
    obtain ⟨i, -, rfl⟩ := List.mem_map.mp hpage
    rfl

def totalPages (m : PhysicalMemoryManager) : Int :=
  m.pages.length

def freePages (m : PhysicalMemoryManager) : Nat :=
  m.pages.countP fun page => !page.inUse

def usedPages (m : PhysicalMemoryManager) : Nat :=
  m.pages.countP fun page => page.inUse

def assign (m : PhysicalMemoryManager) (pfns : List Int) (inUse : Bool) (ownerPid : Int)
    (howner : inUse = false → ownerPid = 0) : PhysicalMemoryManager where
  pages := m.pages.map fun page =>
    if page.pfn ∈ pfns then { page with inUse := inUse, ownerPid := ownerPid } else page
  numbered := by
    rw [List.map_map, List.length_map, ← m.numbered]
    refine List.map_congr_left fun page _ => ?_
    dsimp only [Function.comp_apply]
    split <;> rfl
  unowned := by
    intro page hpage hfree
    obtain ⟨old, hold, rfl⟩ := List.mem_map.mp hpage
    by_cases hmem : old.pfn ∈ pfns
    · simp only [hmem, if_true] at hfree ⊢
      exact howner hfree
    · simp only [hmem, if_false] at hfree ⊢
      exact m.unowned old hold hfree

def allocPage (m : PhysicalMemoryManager) (pid : Int) :
    Option (Page × PhysicalMemoryManager) :=
  match m.pages.find? fun page => !page.inUse with
  | none => none
  | some page =>
      some ({ page with inUse := true, ownerPid := pid },
        m.assign [page.pfn] true pid (by simp))

def freePage (m : PhysicalMemoryManager) (pfn : Int) : PhysicalMemoryManager :=
  if 0 ≤ pfn ∧ pfn < m.totalPages then m.assign [pfn] false 0 (fun _ => rfl) else m

/-- The loop of `allocPages`, with the pages taken so far. -/
def allocPagesLoop : Nat → PhysicalMemoryManager → Int → List Page →
    List Page × PhysicalMemoryManager
  | 0, m, _, result => (result, m)
  | n + 1, m, pid, result =>
      match m.allocPage pid with
      | none => ([], result.foldl (fun m already => m.freePage already.pfn) m)
      | some (page, m) => allocPagesLoop n m pid (result ++ [page])

def allocPages (m : PhysicalMemoryManager) (n : Int) (pid : Int) :
    List Page × PhysicalMemoryManager :=
  allocPagesLoop n.toNat m pid []

def freeFrames (m : PhysicalMemoryManager) : List Int :=
  (m.pages.filter fun page => !page.inUse).map Page.pfn

def framesOf (m : PhysicalMemoryManager) (pid : Int) : List Int :=
  (m.pages.filter fun page => page.inUse && page.ownerPid == pid).map Page.pfn

theorem freeFrames_length (m : PhysicalMemoryManager) :
    m.freeFrames.length = m.freePages := by
  simp [freeFrames, freePages, List.countP_eq_length_filter]

theorem pfn_nodup (m : PhysicalMemoryManager) : (m.pages.map Page.pfn).Nodup := by
  rw [m.numbered]
  exact List.nodup_range.map fun a b h => by exact_mod_cast h

theorem freeFrames_nodup (m : PhysicalMemoryManager) : m.freeFrames.Nodup :=
  m.pfn_nodup.sublist (List.filter_sublist.map Page.pfn)

theorem mem_freeFrames {m : PhysicalMemoryManager} {page : Page} (hpage : page ∈ m.pages) :
    page.pfn ∈ m.freeFrames ↔ page.inUse = false := by
  constructor
  · intro hmem
    obtain ⟨other, hother, hpfn⟩ := List.mem_map.mp hmem
    obtain ⟨hother, hfree⟩ := List.mem_filter.mp hother
    rw [List.inj_on_of_nodup_map m.pfn_nodup hother hpage hpfn] at hfree
    simpa using hfree
  · intro hfree
    exact List.mem_map.mpr ⟨page, List.mem_filter.mpr ⟨hpage, by simp [hfree]⟩, rfl⟩

theorem pfn_range {m : PhysicalMemoryManager} {page : Page} (hpage : page ∈ m.pages) :
    0 ≤ page.pfn ∧ page.pfn < m.totalPages := by
  have hmem : page.pfn ∈ m.pages.map Page.pfn := List.mem_map.mpr ⟨page, hpage, rfl⟩
  rw [m.numbered] at hmem
  obtain ⟨i, hi, hpfn⟩ := List.mem_map.mp hmem
  rw [List.mem_range] at hi
  unfold totalPages
  omega

/-! ## Taking and giving back frames -/

@[simp] theorem assign_nil (m : PhysicalMemoryManager) (inUse : Bool) (ownerPid : Int)
    (h : inUse = false → ownerPid = 0) : m.assign [] inUse ownerPid h = m := by
  ext1
  simp [assign]

theorem assign_assign (m : PhysicalMemoryManager) (first second : List Int)
    (inUse : Bool) (ownerPid : Int) (h : inUse = false → ownerPid = 0) :
    (m.assign first inUse ownerPid h).assign second inUse ownerPid h =
      m.assign (first ++ second) inUse ownerPid h := by
  ext1
  simp only [assign, List.map_map]
  refine List.map_congr_left fun page _ => ?_
  dsimp only [Function.comp_apply]
  by_cases hfirst : page.pfn ∈ first <;> by_cases hsecond : page.pfn ∈ second <;>
    simp [hfirst, hsecond]

theorem assign_restore (m : PhysicalMemoryManager) (pfns : List Int) (pid : Int)
    (hfree : ∀ pfn ∈ pfns, pfn ∈ m.freeFrames) :
    (m.assign pfns true pid (by simp)).assign pfns false 0 (fun _ => rfl) = m := by
  ext1
  simp only [assign, List.map_map]
  conv_rhs => rw [← List.map_id m.pages]
  refine List.map_congr_left fun page hpage => ?_
  dsimp only [Function.comp_apply, id]
  by_cases hmem : page.pfn ∈ pfns
  · have huse := (mem_freeFrames hpage).mp (hfree _ hmem)
    have howner := m.unowned page hpage huse
    cases page
    simp_all
  · simp [hmem]

theorem freePage_of_mem {m : PhysicalMemoryManager} {page : Page} (hpage : page ∈ m.pages) :
    m.freePage page.pfn = m.assign [page.pfn] false 0 (fun _ => rfl) :=
  if_pos (pfn_range hpage)

theorem foldl_freePage (m : PhysicalMemoryManager) (taken : List Page)
    (htaken : ∀ page ∈ taken, page.pfn ∈ m.pages.map Page.pfn) :
    taken.foldl (fun m already => m.freePage already.pfn) m =
      m.assign (taken.map Page.pfn) false 0 (fun _ => rfl) := by
  induction taken generalizing m with
  | nil => simp
  | cons page taken ih =>
      obtain ⟨old, hold, hpfn⟩ := List.mem_map.mp (htaken page List.mem_cons_self)
      have hfirst : m.freePage page.pfn = m.assign [page.pfn] false 0 (fun _ => rfl) := by
        rw [← hpfn]
        exact freePage_of_mem hold
      rw [List.foldl_cons, hfirst, ih, assign_assign]
      · rfl
      · intro other hother
        have hmem := htaken other (List.mem_cons_of_mem _ hother)
        rw [m.numbered] at hmem
        rw [numbered]
        simpa [assign] using hmem

theorem freeFrames_assign (m : PhysicalMemoryManager) (pfns : List Int) (pid : Int) :
    (m.assign pfns true pid (by simp)).freeFrames =
      m.freeFrames.filter fun pfn => pfn ∉ pfns := by
  simp only [freeFrames, assign, List.filter_map, List.map_map, List.filter_filter]
  rw [List.filter_congr (q := fun page => decide (page.pfn ∉ pfns) && !page.inUse)]
  · refine List.map_congr_left fun page hpage => ?_
    have hmem : page.pfn ∉ pfns := by
      have := (List.mem_filter.mp hpage).2
      simp_all
    simp [hmem]
  · intro page _
    by_cases hmem : page.pfn ∈ pfns <;> simp [hmem]

theorem allocPage_eq (m : PhysicalMemoryManager) (pid : Int) :
    (m.freeFrames = [] ∧ m.allocPage pid = none) ∨
      ∃ pfn rest page, m.freeFrames = pfn :: rest ∧ page.pfn = pfn ∧
        m.allocPage pid = some (page, m.assign [pfn] true pid (by simp)) := by
  have hhead : m.freeFrames.head? =
      (m.pages.find? fun page => !page.inUse).map Page.pfn := by
    simp [freeFrames, List.head?_map, List.head?_filter]
  unfold allocPage
  cases hfind : m.pages.find? fun page => !page.inUse with
  | none =>
      rw [hfind] at hhead
      exact Or.inl ⟨List.head?_eq_none_iff.mp hhead, rfl⟩
  | some page =>
      rw [hfind] at hhead
      obtain ⟨rest, hrest⟩ := List.head?_eq_some_iff.mp hhead
      exact Or.inr ⟨page.pfn, rest, { page with inUse := true, ownerPid := pid },
        hrest, rfl, rfl⟩

theorem freeFrames_assign_front {m : PhysicalMemoryManager} {taken rest : List Int}
    (hsplit : m.freeFrames = taken ++ rest) (pid : Int) :
    (m.assign taken true pid (by simp)).freeFrames = rest := by
  have hnodup := m.freeFrames_nodup
  rw [hsplit] at hnodup
  have hrest : rest.filter (fun pfn => pfn ∉ taken) = rest :=
    List.filter_eq_self.mpr fun pfn hpfn => by
      have hdisj := (List.nodup_append.mp hnodup).2.2
      simpa using fun htaken => hdisj pfn htaken pfn hpfn rfl
  rw [freeFrames_assign, hsplit, List.filter_append, hrest]
  simp

theorem giveBack_restore {m : PhysicalMemoryManager} {result : List Page} (pid : Int)
    (hresult : m.freeFrames = result.map Page.pfn) :
    result.foldl (fun m already => m.freePage already.pfn)
      (m.assign (result.map Page.pfn) true pid (by simp)) = m := by
  have hpool : ∀ page ∈ result,
      page.pfn ∈ (m.assign (result.map Page.pfn) true pid (by simp)).pages.map Page.pfn := by
    intro page hpage
    have hfree : page.pfn ∈ m.freeFrames := by
      rw [hresult]
      exact List.mem_map.mpr ⟨page, hpage, rfl⟩
    have hold : page.pfn ∈ m.pages.map Page.pfn :=
      (List.filter_sublist.map Page.pfn).subset hfree
    rw [numbered] at hold ⊢
    simpa [assign] using hold
  rw [foldl_freePage _ _ hpool]
  exact m.assign_restore _ pid fun pfn hpfn => hresult ▸ hpfn

/-- The loop has taken the first free frames of the pool `m` it started from;
it goes on to take the next `n`, or gives all of them back. -/
theorem allocPagesLoop_eq (m : PhysicalMemoryManager) (pid : Int) (n : Nat)
    (taken rest : List Int) (result : List Page) (hsplit : m.freeFrames = taken ++ rest)
    (hresult : result.map Page.pfn = taken) :
    ∃ pages, allocPagesLoop n (m.assign taken true pid (by simp)) pid result =
        (if n ≤ rest.length
          then (pages, m.assign (taken ++ rest.take n) true pid (by simp))
          else ([], m)) ∧
      pages.map Page.pfn = taken ++ rest.take n := by
  induction n generalizing taken rest result with
  | zero => exact ⟨result, by simp [allocPagesLoop], by simp [hresult]⟩
  | succ n ih =>
      have hleft := freeFrames_assign_front hsplit pid
      unfold allocPagesLoop
      rcases allocPage_eq (m.assign taken true pid (by simp)) pid with
        ⟨hnone, halloc⟩ | ⟨pfn, rest', page, hcons, hpfn, halloc⟩
      · obtain rfl : rest = [] := hleft.symm.trans hnone
        subst hresult
        refine ⟨result, ?_, by simp⟩
        rw [halloc]
        simp only [giveBack_restore pid (by simpa using hsplit)]
        exact (if_neg (Nat.not_succ_le_zero n)).symm
      · obtain rfl : rest = pfn :: rest' := hleft.symm.trans hcons
        subst hpfn
        obtain ⟨pages, hloop, hpages⟩ := ih (taken ++ [page.pfn]) rest'
          (result ++ [page]) (by simp [hsplit]) (by simp [hresult])
        refine ⟨pages, ?_, by simpa using hpages⟩
        rw [halloc]
        simp only [assign_assign, hloop, List.length_cons, Nat.succ_le_succ_iff,
          List.take_succ_cons, List.append_assoc, List.singleton_append]

theorem allocPages_of_le (m : PhysicalMemoryManager) {n : Int} (pid : Int)
    (h : n.toNat ≤ m.freePages) :
    ∃ pages, m.allocPages n pid =
        (pages, m.assign (m.freeFrames.take n.toNat) true pid (by simp)) ∧
      pages.map Page.pfn = m.freeFrames.take n.toNat := by
  obtain ⟨pages, hloop, hpages⟩ :=
    allocPagesLoop_eq m pid n.toNat [] m.freeFrames [] rfl rfl
  rw [freeFrames_length, if_pos h, assign_nil] at hloop
  exact ⟨pages, hloop, hpages⟩

theorem allocPages_of_lt (m : PhysicalMemoryManager) {n pid : Int}
    (h : m.freePages < n.toNat) : m.allocPages n pid = ([], m) := by
  obtain ⟨pages, hloop, -⟩ := allocPagesLoop_eq m pid n.toNat [] m.freeFrames [] rfl rfl
  rw [freeFrames_length, if_neg (by omega), assign_nil] at hloop
  exact hloop

theorem framesOf_assign (m : PhysicalMemoryManager) {pfns : List Int} {pid other : Int}
    (hfree : ∀ pfn ∈ pfns, pfn ∈ m.freeFrames) (hother : other ≠ pid) :
    (m.assign pfns true pid (by simp)).framesOf other = m.framesOf other := by
  simp only [framesOf, assign, List.filter_map, List.map_map]
  rw [List.filter_congr (q := fun page => page.inUse && page.ownerPid == other)]
  · refine List.map_congr_left fun page _ => ?_
    dsimp only [Function.comp_apply]
    split <;> rfl
  · intro page hpage
    by_cases hmem : page.pfn ∈ pfns
    · have huse := (mem_freeFrames hpage).mp (hfree _ hmem)
      simp [hmem, huse, hother.symm]
    · simp [hmem]

theorem framesOf_allocPages (m : PhysicalMemoryManager) (n : Int) {pid other : Int}
    (hother : other ≠ pid) : (m.allocPages n pid).2.framesOf other = m.framesOf other := by
  rcases Nat.lt_or_ge m.freePages n.toNat with hlt | hle
  · rw [allocPages_of_lt m hlt]
  · obtain ⟨pages, halloc, -⟩ := m.allocPages_of_le pid hle
    rw [halloc]
    exact m.framesOf_assign (fun pfn hpfn => List.mem_of_mem_take hpfn) hother

end PhysicalMemoryManager

end ComputeKernel.Memory
