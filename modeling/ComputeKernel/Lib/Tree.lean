import Mathlib.Logic.ExistsUnique
import Mathlib.Data.List.Basic
import Mathlib.Data.List.Induction

/-!
# Rooted trees with labelled edges

A graph is a relation `edge source label target`.  `RootedTree` says that the
edges out of a node have distinct labels, that every node but the root has
exactly one incoming edge, and that a rank grows along edges.  Then every node
is reached from the root by exactly one list of labels, and hanging a new leaf
under a node adds one walk and changes no other.
-/

namespace ComputeKernel.Lib.Tree

variable {ν ι : Type*} {edge : ν → ι → ν → Prop} {node : ν → Prop} {root : ν}
  {rank : ν → Nat}

/-- `Walk edge a labels b`: following `labels` from `a` leads to `b`. -/
inductive Walk (edge : ν → ι → ν → Prop) : ν → List ι → ν → Prop
  | nil (a : ν) : Walk edge a [] a
  | cons {a b c : ν} {l : ι} {labels : List ι} :
      edge a l b → Walk edge b labels c → Walk edge a (l :: labels) c

theorem Walk.append {a b c : ν} {first second : List ι} (h : Walk edge a first b)
    (h' : Walk edge b second c) : Walk edge a (first ++ second) c := by
  induction h with
  | nil => exact h'
  | cons hedge _ ih => exact .cons hedge (ih h')

theorem Walk.snoc {a b c : ν} {l : ι} {labels : List ι} (h : Walk edge a labels b)
    (hedge : edge b l c) : Walk edge a (labels ++ [l]) c :=
  h.append (.cons hedge (.nil c))

@[simp] theorem walk_nil_iff {a b : ν} : Walk edge a [] b ↔ a = b := by
  constructor
  · intro h
    cases h
    rfl
  · rintro rfl
    exact .nil a

theorem walk_cons_iff {a c : ν} {l : ι} {labels : List ι} :
    Walk edge a (l :: labels) c ↔ ∃ b, edge a l b ∧ Walk edge b labels c := by
  constructor
  · intro h
    cases h with
    | cons hedge hrest => exact ⟨_, hedge, hrest⟩
  · rintro ⟨b, hedge, hrest⟩
    exact .cons hedge hrest

theorem walk_append_iff {a c : ν} {first second : List ι} :
    Walk edge a (first ++ second) c ↔
      ∃ b, Walk edge a first b ∧ Walk edge b second c := by
  constructor
  · induction first generalizing a with
    | nil => exact fun h => ⟨a, .nil a, h⟩
    | cons l first ih =>
        intro h
        obtain ⟨b, hedge, hrest⟩ := walk_cons_iff.mp h
        obtain ⟨b', hfirst, hsecond⟩ := ih hrest
        exact ⟨b', .cons hedge hfirst, hsecond⟩
  · rintro ⟨b, hfirst, hsecond⟩
    exact hfirst.append hsecond

theorem walk_snoc_iff {a c : ν} {l : ι} {labels : List ι} :
    Walk edge a (labels ++ [l]) c ↔ ∃ b, Walk edge a labels b ∧ edge b l c := by
  rw [walk_append_iff]
  simp [walk_cons_iff]

/-- Edges, nodes, the root, and a rank certifying that there are no cycles. -/
structure RootedTree (edge : ν → ι → ν → Prop) (node : ν → Prop) (root : ν)
    (rank : ν → Nat) : Prop where
  root_node : node root
  source : ∀ {a l b}, edge a l b → node a
  target : ∀ {a l b}, edge a l b → node b
  label : ∀ {a l b b'}, edge a l b → edge a l b' → b = b'
  rank_lt : ∀ {a l b}, edge a l b → rank a < rank b
  entry : ∀ {b}, node b → b ≠ root → ∃ a l, edge a l b
  entry_unique : ∀ {a a' l l' b}, edge a l b → edge a' l' b → a = a' ∧ l = l'
  root_entry : ∀ {a l}, ¬ edge a l root

namespace RootedTree

theorem walk_rank (h : RootedTree edge node root rank) {a b : ν} {labels : List ι}
    (hwalk : Walk edge a labels b) : rank a + labels.length ≤ rank b := by
  induction hwalk with
  | nil => simp
  | cons hedge _ ih =>
      have hlt := h.rank_lt hedge
      simp only [List.length_cons]
      omega

theorem acyclic (h : RootedTree edge node root rank) {a : ν} {labels : List ι}
    (hwalk : Walk edge a labels a) : labels = [] := by
  have hrank := h.walk_rank hwalk
  exact List.length_eq_zero_iff.mp (by omega)

theorem walk_node (h : RootedTree edge node root rank) {a b : ν} {labels : List ι}
    (hwalk : Walk edge a labels b) (ha : node a) : node b := by
  induction hwalk with
  | nil => exact ha
  | cons hedge _ ih => exact ih (h.target hedge)

theorem walk_end (h : RootedTree edge node root rank) {a b b' : ν} {labels : List ι}
    (hwalk : Walk edge a labels b) (hwalk' : Walk edge a labels b') : b = b' := by
  induction hwalk with
  | nil => exact walk_nil_iff.mp hwalk'
  | cons hedge _ ih =>
      obtain ⟨c, hedge', hrest⟩ := walk_cons_iff.mp hwalk'
      obtain rfl := h.label hedge hedge'
      exact ih hrest

theorem exists_walk (h : RootedTree edge node root rank) {b : ν} (hb : node b) :
    ∃ labels, Walk edge root labels b := by
  -- strong induction on the rank: the parent of `b` has a smaller one
  induction hr : rank b using Nat.strongRecOn generalizing b with
  | _ r ih =>
      by_cases hroot : b = root
      · exact ⟨[], hroot ▸ .nil b⟩
      · obtain ⟨a, l, hedge⟩ := h.entry hb hroot
        obtain ⟨labels, hwalk⟩ :=
          ih (rank a) (hr ▸ h.rank_lt hedge) (h.source hedge) rfl
        exact ⟨labels ++ [l], hwalk.snoc hedge⟩

theorem walk_unique (h : RootedTree edge node root rank) {b : ν} {p q : List ι}
    (hp : Walk edge root p b) (hq : Walk edge root q b) : p = q := by
  induction p using List.reverseRecOn generalizing q b with
  | nil =>
      rw [← walk_nil_iff.mp hp] at hq
      exact (h.acyclic hq).symm
  | append_singleton p l ih =>
      obtain ⟨a, hpa, hedge⟩ := walk_snoc_iff.mp hp
      rcases List.eq_nil_or_concat' q with rfl | ⟨q, l', rfl⟩
      · rw [← walk_nil_iff.mp hq] at hedge
        exact (h.root_entry hedge).elim
      · obtain ⟨a', hqa, hedge'⟩ := walk_snoc_iff.mp hq
        obtain ⟨rfl, rfl⟩ := h.entry_unique hedge hedge'
        rw [ih hpa hqa]

theorem existsUnique_walk (h : RootedTree edge node root rank) {b : ν} (hb : node b) :
    ∃! labels, Walk edge root labels b :=
  let ⟨labels, hwalk⟩ := h.exists_walk hb
  ⟨labels, hwalk, fun _ hother => h.walk_unique hother hwalk⟩

end RootedTree

theorem RootedTree.single (hnode : ∀ b, node b ↔ b = root) (hedge : ∀ a l b, ¬ edge a l b) :
    RootedTree edge node root rank where
  root_node := (hnode root).mpr rfl
  source := fun h => (hedge _ _ _ h).elim
  target := fun h => (hedge _ _ _ h).elim
  label := fun h => (hedge _ _ _ h).elim
  rank_lt := fun h => (hedge _ _ _ h).elim
  entry := fun hb hne => (hne ((hnode _).mp hb)).elim
  entry_unique := fun h => (hedge _ _ _ h).elim
  root_entry := fun h => hedge _ _ _ h

/-! ## Hanging a new leaf under a node -/

def addLeaf (edge : ν → ι → ν → Prop) (d : ν) (name : ι) (leaf : ν) :
    ν → ι → ν → Prop :=
  fun a l b => edge a l b ∨ (a = d ∧ l = name ∧ b = leaf)

theorem RootedTree.addLeaf (h : RootedTree edge node root rank) {d leaf : ν} {name : ι}
    (hd : node d) (hfree : ∀ b, ¬ edge d name b) (hleaf : ¬ node leaf)
    (hrank : rank d < rank leaf) :
    RootedTree (Tree.addLeaf edge d name leaf) (fun b => node b ∨ b = leaf) root rank where
  root_node := Or.inl h.root_node
  source := by
    rintro a l b (hedge | ⟨rfl, -, -⟩)
    · exact Or.inl (h.source hedge)
    · exact Or.inl hd
  target := by
    rintro a l b (hedge | ⟨-, -, rfl⟩)
    · exact Or.inl (h.target hedge)
    · exact Or.inr rfl
  label := by
    rintro a l b b' (hedge | ⟨rfl, rfl, rfl⟩) (hedge' | ⟨ha, hl, hb⟩)
    · exact h.label hedge hedge'
    · subst ha hl
      exact (hfree b hedge).elim
    · exact (hfree b' hedge').elim
    · exact hb.symm
  rank_lt := by
    rintro a l b (hedge | ⟨rfl, -, rfl⟩)
    · exact h.rank_lt hedge
    · exact hrank
  entry := by
    rintro b (hb | rfl) hne
    · obtain ⟨a, l, hedge⟩ := h.entry hb hne
      exact ⟨a, l, Or.inl hedge⟩
    · exact ⟨d, name, Or.inr ⟨rfl, rfl, rfl⟩⟩
  entry_unique := by
    rintro a a' l l' b (hedge | ⟨rfl, rfl, rfl⟩) (hedge' | ⟨ha, hl, hb⟩)
    · exact h.entry_unique hedge hedge'
    · subst hb
      exact (hleaf (h.target hedge)).elim
    · exact (hleaf (h.target hedge')).elim
    · exact ⟨ha.symm, hl.symm⟩
  root_entry := by
    rintro a l (hedge | ⟨-, -, rfl⟩)
    · exact h.root_entry hedge
    · exact hleaf h.root_node

theorem walk_addLeaf (h : RootedTree edge node root rank) {d leaf : ν} {name : ι}
    (hleaf : ¬ node leaf) {a b : ν} (ha : node a) {labels : List ι} :
    Walk (addLeaf edge d name leaf) a labels b ↔
      Walk edge a labels b ∨
        (b = leaf ∧ ∃ init, labels = init ++ [name] ∧ Walk edge a init d) := by
  constructor
  · intro hwalk
    induction labels generalizing a with
    | nil => exact Or.inl (walk_nil_iff.mpr (walk_nil_iff.mp hwalk))
    | cons l labels ih =>
        obtain ⟨c, hedge | ⟨rfl, rfl, rfl⟩, hrest⟩ := walk_cons_iff.mp hwalk
        · rcases ih (h.target hedge) hrest with hold | ⟨rfl, init, rfl, hinit⟩
          · exact Or.inl (.cons hedge hold)
          · exact Or.inr ⟨rfl, l :: init, rfl, .cons hedge hinit⟩
        · -- a walk out of the leaf is empty, since the leaf is no old node
          cases labels with
          | nil =>
              obtain rfl := walk_nil_iff.mp hrest
              exact Or.inr ⟨rfl, [], rfl, .nil a⟩
          | cons l' labels =>
              obtain ⟨c', hedge' | ⟨hca, -, -⟩, -⟩ := walk_cons_iff.mp hrest
              · exact (hleaf (h.source hedge')).elim
              · exact (hleaf (hca ▸ ha)).elim
  · rintro (hwalk | ⟨rfl, init, rfl, hinit⟩)
    · induction hwalk with
      | nil => exact .nil _
      | cons hedge _ ih => exact .cons (Or.inl hedge) (ih (h.target hedge))
    · have hold : Walk (addLeaf edge d name b) a init d := by
        induction hinit with
        | nil => exact .nil _
        | cons hedge _ ih => exact .cons (Or.inl hedge) (ih (h.target hedge))
      exact hold.snoc (Or.inr ⟨rfl, rfl, rfl⟩)

end ComputeKernel.Lib.Tree
