import Mathlib.Data.List.DropRight
import Mathlib.Data.List.Infix

/-!
# Separated paths

A path is a list over some alphabet in which one letter separates components.
`components` forgets how a path is spelled, `spell` is the canonical absolute
spelling of a list of components, and `Captures` is the textual test whether a
canonical path is a prefix of another path that ends at a component boundary.
-/

namespace ComputeKernel.Lib.Path

variable {α : Type*} {sep : α}

def IsComponent (sep : α) (c : List α) : Prop :=
  c ≠ [] ∧ sep ∉ c

def render (sep : α) (cs : List (List α)) : List α :=
  cs.flatMap fun c => sep :: c

@[simp] theorem render_nil : render sep ([] : List (List α)) = [] := rfl

@[simp] theorem render_cons (c : List α) (cs : List (List α)) :
    render sep (c :: cs) = sep :: c ++ render sep cs := rfl

theorem render_append (left right : List (List α)) :
    render sep (left ++ right) = render sep left ++ render sep right :=
  List.flatMap_append

theorem render_eq_nil {cs : List (List α)} : render sep cs = [] ↔ cs = [] := by
  cases cs <;> simp

theorem intercalate_eq_render (head : List α) (tail : List (List α)) :
    [sep].intercalate (head :: tail) = head ++ render sep tail := by
  induction tail generalizing head with
  | nil => simp
  | cons next tail ih =>
      rw [List.intercalate_cons_cons, ih, render_cons]
      simp

/-- The canonical absolute spelling; no components are spelled by one separator. -/
def spell (sep : α) (cs : List (List α)) : List α :=
  if cs = [] then [sep] else render sep cs

theorem length_spell_lt {short tail : List (List α)} (htail : tail ≠ [])
    (hcs : ∀ c ∈ short ++ tail, IsComponent sep c) :
    (spell sep short).length < (spell sep (short ++ tail)).length := by
  obtain ⟨c, cs, rfl⟩ := List.exists_cons_of_ne_nil htail
  have hc : c ≠ [] := (hcs c (by simp)).1
  have hpos : 0 < c.length := List.length_pos_iff.mpr hc
  by_cases hshort : short = []
  · simp only [spell, hshort, List.nil_append, if_true, reduceCtorEq, if_false,
      render_cons, List.length_append, List.length_cons, List.length_nil]
    omega
  · simp only [spell, hshort, List.append_eq_nil_iff, false_and, if_false,
      render_append, render_cons, List.length_append, List.length_cons]
    omega

variable [DecidableEq α]

/-- Nonempty sections between separators. -/
def components (sep : α) (path : List α) : List (List α) :=
  (path.splitOn sep).filter (· ≠ [])

/-- Absolute, without empty component, and without trailing separator unless
the path is the separator alone. -/
def Normalized (sep : α) (path : List α) : Prop :=
  path = [sep] ∨ ∃ rest, path = sep :: rest ∧ [] ∉ rest.splitOn sep

/-- The path is `mount`, or continues `mount` stripped of trailing separators
with a separator. -/
def Captures (sep : α) (mount path : List α) : Prop :=
  path = mount ∨ mount.rdropWhile (· == sep) ++ [sep] <+: path

instance (mount path : List α) : Decidable (Captures sep mount path) :=
  inferInstanceAs (Decidable (_ ∨ _))

/-! ## Components of a spelled path -/

@[simp] theorem components_nil : components sep [] = [] := by
  simp [components]

theorem components_append_sep (left right : List α) :
    components sep (left ++ sep :: right) =
      components sep left ++ components sep right := by
  simp [components, List.splitOn_append_cons_self]

@[simp] theorem components_sep_cons (path : List α) :
    components sep (sep :: path) = components sep path := by
  simpa using components_append_sep ([] : List α) path

theorem components_of_isComponent {c : List α} (hc : IsComponent sep c) :
    components sep c = [c] := by
  rw [components, List.splitOn_eq_singleton hc.2]
  simp [hc.1]

theorem components_append_render (path : List α) (cs : List (List α))
    (hcs : ∀ c ∈ cs, IsComponent sep c) :
    components sep (path ++ render sep cs) = components sep path ++ cs := by
  induction cs generalizing path with
  | nil => simp
  | cons c cs ih =>
      have htail : ∀ c ∈ cs, IsComponent sep c := fun c hc =>
        hcs c (List.mem_cons_of_mem _ hc)
      have hc : components sep c = [c] :=
        components_of_isComponent (hcs c List.mem_cons_self)
      rw [render_cons, ← List.append_assoc, ih _ htail, components_append_sep, hc,
        List.append_assoc, List.singleton_append]

theorem components_render {cs : List (List α)} (hcs : ∀ c ∈ cs, IsComponent sep c) :
    components sep (render sep cs) = cs := by
  simpa using components_append_render [] cs hcs

theorem components_spell {cs : List (List α)} (hcs : ∀ c ∈ cs, IsComponent sep c) :
    components sep (spell sep cs) = cs := by
  unfold spell
  split
  · rename_i hnil
    simp [hnil]
  · exact components_render hcs

private theorem not_mem_of_mem_splitOn {path : List α} :
    ∀ c ∈ path.splitOn sep, sep ∉ c := by
  induction path with
  | nil => simp
  | cons a path ih =>
      rw [List.splitOn_cons_eq_if_modifyHead]
      split
      · simpa using ih
      · rename_i hne
        obtain ⟨head, tail, hsplit⟩ :=
          List.exists_cons_of_ne_nil (List.splitOn_ne_nil sep path)
        have hne' : sep ≠ a := fun h => hne (by simp [h])
        rw [hsplit] at ih ⊢
        simp only [List.modifyHead_cons, List.mem_cons, forall_eq_or_imp] at ih ⊢
        exact ⟨by simp [hne', ih.1], ih.2⟩

theorem isComponent_of_mem {path c : List α} (hc : c ∈ components sep path) :
    IsComponent sep c := by
  obtain ⟨hmem, hne⟩ := List.mem_filter.mp hc
  exact ⟨by simpa using hne, not_mem_of_mem_splitOn c hmem⟩

theorem flatten_components (path : List α) :
    (components sep path).flatten = path.filter (· ≠ sep) := by
  induction path with
  | nil => simp
  | cons a path ih =>
      by_cases ha : a = sep
      · subst ha
        simpa using ih
      · obtain ⟨head, tail, hsplit⟩ :=
          List.exists_cons_of_ne_nil (List.splitOn_ne_nil sep path)
        have hcons : (a :: path).splitOn sep = (a :: head) :: tail := by
          simp [List.splitOn_cons_eq_if_modifyHead, ha, hsplit]
        have hfilter : (a :: path).filter (· ≠ sep) = a :: path.filter (· ≠ sep) :=
          List.filter_cons_of_pos (by simpa using ha)
        rw [components, hsplit] at ih
        rw [components, hcons, hfilter, ← ih]
        by_cases hhead : head = [] <;> simp [hhead]

theorem components_cons_ne {a : α} (path : List α) (ha : a ≠ sep) :
    components sep (a :: path) ≠ components sep path := by
  intro h
  have hletters := congrArg (fun cs => cs.flatten.length) h
  simp [flatten_components, ha] at hletters

/-! ## Canonical spelling -/

theorem Normalized.eq_spell {path : List α} (h : Normalized sep path) :
    path = spell sep (components sep path) := by
  rcases h with rfl | ⟨rest, rfl, hrest⟩
  · simp [spell]
  · have hall : components sep rest = rest.splitOn sep := by
      refine List.filter_eq_self.mpr fun c hc => ?_
      have hne : c ≠ [] := fun h => hrest (h ▸ hc)
      simpa using hne
    rw [components_sep_cons, hall, spell, if_neg (List.splitOn_ne_nil sep rest)]
    obtain ⟨head, tail, hsplit⟩ :=
      List.exists_cons_of_ne_nil (List.splitOn_ne_nil sep rest)
    have hjoin := @List.intercalate_splitOn _ rest _ _ sep
    rw [hsplit, intercalate_eq_render] at hjoin
    rw [hsplit, render_cons, List.cons_append, hjoin]

theorem normalized_spell {cs : List (List α)} (hcs : ∀ c ∈ cs, IsComponent sep c) :
    Normalized sep (spell sep cs) := by
  cases cs with
  | nil => exact Or.inl rfl
  | cons c cs =>
      refine Or.inr ⟨c ++ render sep cs, rfl, ?_⟩
      have hfree : ∀ l ∈ c :: cs, sep ∉ l := fun l hl => (hcs l hl).2
      rw [← intercalate_eq_render, List.splitOn_intercalate sep hfree (by simp)]
      exact fun hmem => (hcs [] hmem).1 rfl

theorem Normalized.eq_of_components {left right : List α} (hleft : Normalized sep left)
    (hright : Normalized sep right)
    (h : components sep left = components sep right) : left = right := by
  rw [hleft.eq_spell, hright.eq_spell, h]

theorem Normalized.absolute {path : List α} (h : Normalized sep path) :
    ∃ rest, path = sep :: rest := by
  rcases h with rfl | ⟨rest, rfl, -⟩
  · exact ⟨[], rfl⟩
  · exact ⟨rest, rfl⟩

theorem Normalized.components_ne_nil {path : List α} (h : Normalized sep path)
    (hne : path ≠ [sep]) : components sep path ≠ [] := by
  intro hnil
  rw [h.eq_spell, hnil] at hne
  exact hne rfl

theorem Normalized.exists_concat {path : List α} (h : Normalized sep path)
    (hne : components sep path ≠ []) :
    ∃ cs name, (∀ c ∈ cs ++ [name], IsComponent sep c) ∧ path = spell sep (cs ++ [name]) := by
  obtain ⟨cs, name, hsplit⟩ := (List.eq_nil_or_concat' (components sep path)).resolve_left hne
  refine ⟨cs, name, ?_, ?_⟩
  · rw [← hsplit]
    exact fun c => isComponent_of_mem
  · rw [← hsplit]
    exact h.eq_spell

theorem splitOn_render {cs : List (List α)} (hcs : ∀ c ∈ cs, IsComponent sep c) :
    (render sep cs).splitOn sep = [] :: cs := by
  have hfree : ∀ l ∈ [] :: cs, sep ∉ l := by
    intro l hl
    rcases List.mem_cons.mp hl with rfl | hl
    · exact List.not_mem_nil
    · exact (hcs l hl).2
  have hjoin := @intercalate_eq_render _ sep ([] : List α) cs
  rw [List.nil_append] at hjoin
  rw [← hjoin, List.splitOn_intercalate sep hfree (by simp)]

/-! ## Stripping trailing separators -/

theorem rdropWhile_render {cs : List (List α)} (hcs : ∀ c ∈ cs, IsComponent sep c) :
    (render sep cs).rdropWhile (· == sep) = render sep cs := by
  rw [List.rdropWhile_eq_self_iff]
  intro hne
  obtain ⟨init, last, rfl⟩ := List.eq_nil_or_concat'  cs |>.resolve_left
    fun h => hne (render_eq_nil.mpr h)
  obtain ⟨hlast, hfree⟩ := hcs last (by simp)
  have hrender : render sep (init ++ [last]) = render sep init ++ [sep] ++ last := by
    simp [render_append]
  have hmem : (render sep (init ++ [last])).getLast hne ∈ last := by
    simp only [hrender, List.getLast_append_of_ne_nil _ hlast]
    exact List.getLast_mem hlast
  intro h
  rw [beq_iff_eq.mp h] at hmem
  exact hfree hmem

theorem rdropWhile_spell {cs : List (List α)} (hcs : ∀ c ∈ cs, IsComponent sep c) :
    (spell sep cs).rdropWhile (· == sep) = render sep cs := by
  unfold spell
  split
  · rename_i hnil
    simp [hnil, List.rdropWhile_singleton]
  · exact rdropWhile_render hcs

/-! ## Capturing a path by a mount point -/

theorem captures_root (path : List α) : Captures sep [sep] (sep :: path) := by
  refine Or.inr ⟨path, ?_⟩
  simp [List.rdropWhile_singleton]

theorem Captures.absolute {mount path : List α} (hmount : Normalized sep mount)
    (h : Captures sep mount path) : ∃ rest, path = sep :: rest := by
  rcases h with rfl | ⟨rest, rfl⟩
  · exact hmount.absolute
  · rw [hmount.eq_spell, rdropWhile_spell fun c => isComponent_of_mem]
    cases components sep mount with
    | nil => exact ⟨rest, rfl⟩
    | cons c cs => exact ⟨c ++ render sep cs ++ [sep] ++ rest, by simp⟩

theorem Captures.components {mount path : List α} (hmount : Normalized sep mount)
    (h : Captures sep mount path) :
    components sep path =
      components sep mount ++ components sep (path.drop mount.length) := by
  have hcs : ∀ c ∈ Path.components sep mount, IsComponent sep c :=
    fun c => isComponent_of_mem
  rcases h with rfl | ⟨rest, rfl⟩
  · simp
  · rw [hmount.eq_spell, rdropWhile_spell hcs, components_spell hcs, List.append_assoc,
      List.singleton_append, components_append_sep, components_render hcs]
    unfold spell
    split
    · rename_i hnil
      simp [hnil]
    · simp

theorem Captures.isPrefix {mount path : List α} (hmount : Normalized sep mount)
    (h : Captures sep mount path) :
    Path.components sep mount <+: Path.components sep path :=
  ⟨_, (h.components hmount).symm⟩

/-- On normalized paths the textual test is the component prefix test. -/
theorem captures_iff_isPrefix {mount path : List α} (hmount : Normalized sep mount)
    (hpath : Normalized sep path) :
    Captures sep mount path ↔ components sep mount <+: components sep path := by
  refine ⟨fun h => h.isPrefix hmount, fun ⟨tail, htail⟩ => ?_⟩
  have hcs : ∀ c ∈ components sep mount, IsComponent sep c := fun c => isComponent_of_mem
  have hne : components sep mount ≠ [] → mount = render sep (components sep mount) :=
    fun h => by
      conv_lhs => rw [hmount.eq_spell]
      rw [spell, if_neg h]
  by_cases hnil : components sep mount = []
  · obtain ⟨rest, rfl⟩ := hpath.absolute
    have hroot : mount = [sep] := by rw [hmount.eq_spell, hnil]; rfl
    rw [hroot]
    exact captures_root rest
  · have hspelled : path = render sep (components sep mount ++ tail) := by
      conv_lhs => rw [hpath.eq_spell, ← htail]
      rw [spell, if_neg (by simp [hnil])]
    rw [render_append, ← hne hnil] at hspelled
    cases tail with
    | nil => exact Or.inl (by simpa using hspelled)
    | cons c tail =>
        have hstrip : mount.rdropWhile (· == sep) = mount := by
          rw [hne hnil]
          exact rdropWhile_render hcs
        refine Or.inr ⟨c ++ render sep tail, ?_⟩
        rw [hstrip, hspelled]
        simp

theorem components_length_le {first second path : List α}
    (hfirst : Normalized sep first) (hsecond : Normalized sep second)
    (hfirst' : components sep first <+: components sep path)
    (hsecond' : components sep second <+: components sep path)
    (h : second.length ≤ first.length) :
    (components sep second).length ≤ (components sep first).length := by
  by_contra hlt
  obtain ⟨tail, htail⟩ :=
    List.prefix_of_prefix_length_le hfirst' hsecond' (by omega)
  have hne : tail ≠ [] := by
    rintro rfl
    rw [List.append_nil] at htail
    rw [htail] at hlt
    exact hlt (Nat.le_refl _)
  have hcs : ∀ c ∈ components sep first ++ tail, IsComponent sep c := by
    rw [htail]
    exact fun c => isComponent_of_mem
  have hspell := length_spell_lt hne hcs
  rw [htail, ← hfirst.eq_spell, ← hsecond.eq_spell] at hspell
  omega

end ComputeKernel.Lib.Path
