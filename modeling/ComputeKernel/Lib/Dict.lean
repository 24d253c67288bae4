import Mathlib.Data.List.Nodup

/-!
# Insertion-ordered dictionaries

`Dict κ α` is an association list whose keys are pairwise distinct.  Setting a
present key replaces its value in place, and setting an absent key appends an
entry, so iteration follows the order of first insertion.
-/

namespace ComputeKernel.Lib

universe u v

/-- An insertion-ordered dictionary; repeated keys cannot be built. -/
structure Dict (κ : Type u) (α : Type v) where
  entries : List (κ × α)
  keys_nodup : (entries.map Prod.fst).Nodup

namespace Dict

variable {κ : Type u} {α : Type v}

def keys (d : Dict κ α) : List κ :=
  d.entries.map Prod.fst

def values (d : Dict κ α) : List α :=
  d.entries.map Prod.snd

def empty : Dict κ α :=
  ⟨[], List.nodup_nil⟩

theorem ext {left right : Dict κ α} (h : left.entries = right.entries) :
    left = right := by
  cases left
  cases right
  simpa using h

instance : Membership κ (Dict κ α) := ⟨fun d key => key ∈ d.keys⟩

theorem mem_iff_keys {d : Dict κ α} {key : κ} : key ∈ d ↔ key ∈ d.keys := Iff.rfl

@[simp] theorem not_mem_empty (key : κ) : key ∉ (empty : Dict κ α) :=
  List.not_mem_nil

variable [DecidableEq κ]

instance [DecidableEq α] : DecidableEq (Dict κ α) := fun left right =>
  decidable_of_iff (left.entries = right.entries)
    ⟨ext, fun h => congrArg entries h⟩

def get? (d : Dict κ α) (key : κ) : Option α :=
  d.entries.lookup key

/-- Replace the value at `key` in place, or append a new entry. -/
def setEntry (key : κ) (value : α) : List (κ × α) → List (κ × α)
  | [] => [(key, value)]
  | (k, v) :: rest =>
      if k = key then (key, value) :: rest else (k, v) :: setEntry key value rest

theorem map_fst_setEntry (key : κ) (value : α) (entries : List (κ × α)) :
    (setEntry key value entries).map Prod.fst =
      if key ∈ entries.map Prod.fst then entries.map Prod.fst
      else entries.map Prod.fst ++ [key] := by
  induction entries with
  | nil => simp [setEntry]
  | cons entry rest ih =>
      obtain ⟨k, v⟩ := entry
      by_cases hkey : k = key
      · simp [setEntry, hkey]
      · have hkey' : key ≠ k := fun h => hkey h.symm
        simp only [setEntry, hkey, if_false, List.map_cons, ih, List.mem_cons,
          hkey', false_or]
        split <;> rfl

def set (d : Dict κ α) (key : κ) (value : α) : Dict κ α where
  entries := setEntry key value d.entries
  keys_nodup := by
    rw [map_fst_setEntry]
    split
    · exact d.keys_nodup
    · rename_i habsent
      exact List.nodup_append.mpr ⟨d.keys_nodup, List.nodup_singleton key,
        fun k hk k' hk' h => habsent (by
          rw [← List.mem_singleton.mp hk', ← h]
          exact hk)⟩

def erase (d : Dict κ α) (key : κ) : Dict κ α where
  entries := d.entries.filter fun entry => entry.1 ≠ key
  keys_nodup := d.keys_nodup.sublist (List.filter_sublist.map Prod.fst)

def modify (d : Dict κ α) (key : κ) (f : α → α) : Dict κ α :=
  match d.get? key with
  | none => d
  | some value => d.set key (f value)

instance (key : κ) (d : Dict κ α) : Decidable (key ∈ d) :=
  inferInstanceAs (Decidable (key ∈ d.keys))

@[simp] theorem get?_empty (key : κ) : (empty : Dict κ α).get? key = none := rfl

theorem mem_iff_isSome {d : Dict κ α} {key : κ} :
    key ∈ d ↔ (d.get? key).isSome := by
  rw [mem_iff_keys, keys, get?, List.lookup_isSome_iff]
  simp

theorem mem_iff_exists {d : Dict κ α} {key : κ} :
    key ∈ d ↔ ∃ value, d.get? key = some value := by
  rw [mem_iff_isSome, Option.isSome_iff_exists]

theorem get?_eq_none {d : Dict κ α} {key : κ} : d.get? key = none ↔ key ∉ d := by
  rw [mem_iff_isSome]
  simp

theorem mem_of_get? {d : Dict κ α} {key : κ} {value : α}
    (h : d.get? key = some value) : key ∈ d :=
  mem_iff_exists.mpr ⟨value, h⟩

private theorem lookup_cons_if (key k : κ) (v : α) (rest : List (κ × α)) :
    ((k, v) :: rest).lookup key = if key = k then some v else rest.lookup key := by
  by_cases h : key = k
  · simp [h]
  · simp only [List.lookup_cons, beq_eq_false_iff_ne.mpr h, h, if_false]

theorem lookup_setEntry (key key' : κ) (value : α) (entries : List (κ × α)) :
    (setEntry key value entries).lookup key' =
      if key' = key then some value else entries.lookup key' := by
  induction entries with
  | nil => exact lookup_cons_if key' key value []
  | cons entry rest ih =>
      obtain ⟨k, v⟩ := entry
      by_cases hk : k = key
      · subst hk
        simp only [setEntry, if_true, lookup_cons_if]
        split <;> rfl
      · simp only [setEntry, hk, if_false, lookup_cons_if, ih]
        by_cases h : key' = k
        · subst h
          simp [hk]
        · simp [h]

theorem get?_set (d : Dict κ α) (key key' : κ) (value : α) :
    (d.set key value).get? key' = if key' = key then some value else d.get? key' :=
  lookup_setEntry key key' value d.entries

@[simp] theorem get?_set_self (d : Dict κ α) (key : κ) (value : α) :
    (d.set key value).get? key = some value := by
  simp [get?_set]

theorem get?_set_of_ne (d : Dict κ α) {key key' : κ} (value : α) (h : key' ≠ key) :
    (d.set key value).get? key' = d.get? key' := by
  simp [get?_set, h]

theorem lookup_filter_ne (key key' : κ) (entries : List (κ × α)) :
    (entries.filter fun entry => entry.1 ≠ key).lookup key' =
      if key' = key then none else entries.lookup key' := by
  induction entries with
  | nil => simp
  | cons entry rest ih =>
      obtain ⟨k, v⟩ := entry
      by_cases hk : k = key
      · subst hk
        rw [List.filter_cons_of_neg (by simp), ih, lookup_cons_if]
        split <;> rfl
      · rw [List.filter_cons_of_pos (by simpa using hk), lookup_cons_if,
          lookup_cons_if, ih]
        by_cases h : key' = k
        · subst h
          simp [hk]
        · simp [h]

theorem get?_erase (d : Dict κ α) (key key' : κ) :
    (d.erase key).get? key' = if key' = key then none else d.get? key' :=
  lookup_filter_ne key key' d.entries

theorem get?_erase_of_ne (d : Dict κ α) {key key' : κ} (h : key' ≠ key) :
    (d.erase key).get? key' = d.get? key' := by
  simp [get?_erase, h]

theorem get?_modify (d : Dict κ α) (key key' : κ) (f : α → α) :
    (d.modify key f).get? key' =
      if key' = key then (d.get? key).map f else d.get? key' := by
  unfold modify
  cases hget : d.get? key with
  | none =>
      by_cases h : key' = key
      · simp [h, hget]
      · simp [h]
  | some value => simp [get?_set]

theorem get?_modify_eq_map (d : Dict κ α) (key key' : κ) (f : α → α) :
    (d.modify key f).get? key' =
      (d.get? key').map fun value => if key' = key then f value else value := by
  rw [get?_modify]
  split
  · rename_i h
    simp [h]
  · simp

theorem get?_modify_of_ne (d : Dict κ α) {key key' : κ} (f : α → α)
    (h : key' ≠ key) : (d.modify key f).get? key' = d.get? key' := by
  simp [get?_modify, h]

theorem map_update_of_notMem {key : κ} {entries : List (κ × α)}
    (h : key ∉ entries.map Prod.fst) (f : α → α) :
    entries.map (fun entry => if entry.1 = key then (entry.1, f entry.2) else entry) =
      entries := by
  conv_rhs => rw [← List.map_id entries]
  apply List.map_congr_left
  intro entry hmem
  have hne : entry.1 ≠ key := fun hkey => h (hkey ▸ List.mem_map_of_mem hmem)
  exact if_neg hne

theorem setEntry_of_lookup {key : κ} {value : α} {entries : List (κ × α)}
    (hnodup : (entries.map Prod.fst).Nodup) (h : entries.lookup key = some value)
    (f : α → α) :
    setEntry key (f value) entries =
      entries.map fun entry => if entry.1 = key then (entry.1, f entry.2) else entry := by
  induction entries with
  | nil => cases h
  | cons entry rest ih =>
      obtain ⟨k, v⟩ := entry
      obtain ⟨hk, hrest⟩ := List.nodup_cons.mp hnodup
      rw [lookup_cons_if] at h
      by_cases hkey : k = key
      · subst hkey
        rw [if_pos rfl] at h
        cases h
        rw [List.map_cons, map_update_of_notMem hk, if_pos rfl, setEntry, if_pos rfl]
      · rw [if_neg fun h => hkey h.symm] at h
        rw [List.map_cons, if_neg hkey, setEntry, if_neg hkey, ih hrest h]

theorem entries_modify (d : Dict κ α) (key : κ) (f : α → α) :
    (d.modify key f).entries =
      d.entries.map fun entry => if entry.1 = key then (entry.1, f entry.2) else entry := by
  unfold modify
  cases hget : d.get? key with
  | none => exact (map_update_of_notMem (get?_eq_none.mp hget) f).symm
  | some value => exact setEntry_of_lookup d.keys_nodup hget f

@[simp] theorem keys_modify (d : Dict κ α) (key : κ) (f : α → α) :
    (d.modify key f).keys = d.keys := by
  unfold keys
  rw [entries_modify, List.map_map]
  apply List.map_congr_left
  intro entry _
  simp only [Function.comp_apply]
  split <;> rfl

theorem modify_comm (d : Dict κ α) {key key' : κ} {f g : α → α}
    (h : key = key' → ∀ value, f (g value) = g (f value)) :
    (d.modify key f).modify key' g = (d.modify key' g).modify key f := by
  apply ext
  rw [entries_modify, entries_modify, entries_modify, entries_modify, List.map_map, List.map_map]
  apply List.map_congr_left
  rintro ⟨k, v⟩ _
  by_cases hfirst : k = key
  · by_cases hsecond : k = key'
    · have hv := h (hfirst.symm.trans hsecond) v
      simp [← hfirst, ← hsecond, hv]
    · simp [← hfirst, hsecond]
  · simp only [Function.comp_apply, if_neg hfirst]
    split
    · rfl
    · rfl

theorem forall_get?_set {P : κ → α → Prop} {d : Dict κ α}
    (h : ∀ key value, d.get? key = some value → P key value) {key : κ} {value : α}
    (hnew : P key value) :
    ∀ key' value', (d.set key value).get? key' = some value' → P key' value' := by
  intro key' value' hget
  rw [get?_set] at hget
  split at hget
  · rename_i hkey
    cases hget
    exact hkey ▸ hnew
  · exact h key' value' hget

theorem forall_get?_erase {P : κ → α → Prop} {d : Dict κ α}
    (h : ∀ key value, d.get? key = some value → P key value) (key : κ) :
    ∀ key' value', (d.erase key).get? key' = some value' → P key' value' := by
  intro key' value' hget
  rw [get?_erase] at hget
  split at hget
  · cases hget
  · exact h key' value' hget

theorem forall_get?_modify {P : κ → α → Prop} {d : Dict κ α}
    (h : ∀ key value, d.get? key = some value → P key value) (key : κ) {f : α → α}
    (hf : ∀ key' value, P key' value → P key' (f value)) :
    ∀ key' value', (d.modify key f).get? key' = some value' → P key' value' := by
  intro key' value' hget
  rw [get?_modify_eq_map] at hget
  obtain ⟨value, hold, rfl⟩ := Option.map_eq_some_iff.mp hget
  split
  · exact hf key' value (h key' value hold)
  · exact h key' value hold

theorem modify_of_get? {d : Dict κ α} {key : κ} {value : α} (f : α → α)
    (h : d.get? key = some value) : d.modify key f = d.set key (f value) := by
  simp [modify, h]

theorem modify_of_not_mem {d : Dict κ α} {key : κ} (h : d.get? key = none) (f : α → α) :
    d.modify key f = d := by
  simp [modify, h]

@[simp] theorem mem_set {d : Dict κ α} {key key' : κ} {value : α} :
    key' ∈ d.set key value ↔ key' = key ∨ key' ∈ d := by
  rw [mem_iff_isSome, mem_iff_isSome, get?_set]
  by_cases h : key' = key <;> simp [h]

@[simp] theorem mem_erase {d : Dict κ α} {key key' : κ} :
    key' ∈ d.erase key ↔ key' ≠ key ∧ key' ∈ d := by
  rw [mem_iff_isSome, mem_iff_isSome, get?_erase]
  by_cases h : key' = key <;> simp [h]

@[simp] theorem mem_modify {d : Dict κ α} {key key' : κ} {f : α → α} :
    key' ∈ d.modify key f ↔ key' ∈ d := by
  rw [mem_iff_isSome, mem_iff_isSome, get?_modify]
  by_cases h : key' = key <;> simp [h]

theorem set_eq_self {d : Dict κ α} {key : κ} {value : α}
    (h : d.get? key = some value) : d.set key value = d := by
  apply ext
  have hlookup : d.entries.lookup key = some value := h
  change setEntry key value d.entries = d.entries
  generalize d.entries = entries at hlookup
  induction entries with
  | nil => simp at hlookup
  | cons entry rest ih =>
      obtain ⟨k, v⟩ := entry
      by_cases hk : k = key
      · subst hk
        simp only [List.lookup_cons_self, Option.some.injEq] at hlookup
        simp [setEntry, hlookup]
      · have hk' : key ≠ k := fun h => hk h.symm
        simp only [lookup_cons_if, hk', if_false] at hlookup
        simp [setEntry, hk, ih hlookup]

theorem entries_set_of_not_mem {d : Dict κ α} {key : κ} (h : key ∉ d) (value : α) :
    (d.set key value).entries = d.entries ++ [(key, value)] := by
  have habsent : key ∉ d.entries.map Prod.fst := h
  change setEntry key value d.entries = _
  generalize d.entries = entries at habsent
  induction entries with
  | nil => rfl
  | cons entry rest ih =>
      obtain ⟨k, v⟩ := entry
      obtain ⟨hk, hrest⟩ := not_or.mp fun hor => habsent (List.mem_cons.mpr hor)
      rw [setEntry, if_neg (Ne.symm hk), ih hrest, List.cons_append]

theorem erase_of_not_mem {d : Dict κ α} {key : κ} (h : key ∉ d) : d.erase key = d := by
  apply ext
  apply List.filter_eq_self.mpr
  intro entry hentry
  have hne : entry.1 ≠ key := fun hkey => h (hkey ▸ List.mem_map_of_mem hentry)
  simpa using hne

theorem mem_entries {d : Dict κ α} {key : κ} {value : α} :
    (key, value) ∈ d.entries ↔ d.get? key = some value := by
  unfold get?
  constructor
  · intro hentry
    obtain ⟨before, after, hsplit⟩ := List.append_of_mem hentry
    have hfresh : before.lookup key = none := by
      have hnodup := d.keys_nodup
      rw [hsplit, List.map_append, List.map_cons] at hnodup
      have hdisjoint := (List.nodup_append.mp hnodup).2.2
      rw [List.lookup_eq_none_iff]
      intro entry hmem
      have hne := hdisjoint entry.1 (List.mem_map_of_mem hmem) key List.mem_cons_self
      simpa using hne.symm
    simp [hsplit, List.lookup_append, hfresh]
  · intro hget
    obtain ⟨before, after, hsplit, -⟩ := List.lookup_eq_some_iff.mp hget
    rw [hsplit]
    simp

theorem mem_values {d : Dict κ α} {value : α} :
    value ∈ d.values ↔ ∃ key, d.get? key = some value := by
  unfold values
  constructor
  · intro h
    obtain ⟨⟨key, value'⟩, hentry, rfl⟩ := List.mem_map.mp h
    exact ⟨key, mem_entries.mp hentry⟩
  · rintro ⟨key, hget⟩
    exact List.mem_map_of_mem (mem_entries.mpr hget)

/-! ## All values at once -/

section MapValues

variable {β : Type*}

def mapValues (d : Dict κ α) (f : α → β) : Dict κ β where
  entries := d.entries.map fun entry => (entry.1, f entry.2)
  keys_nodup := by
    rw [List.map_map]
    exact d.keys_nodup

omit [DecidableEq κ] in
@[simp] theorem keys_mapValues (d : Dict κ α) (f : α → β) : (d.mapValues f).keys = d.keys :=
  List.map_map

omit [DecidableEq κ] in
@[simp] theorem mem_mapValues {d : Dict κ α} {f : α → β} {key : κ} :
    key ∈ d.mapValues f ↔ key ∈ d := by
  rw [mem_iff_keys, keys_mapValues, mem_iff_keys]

theorem get?_mapValues (d : Dict κ α) (f : α → β) (key : κ) :
    (d.mapValues f).get? key = (d.get? key).map f := by
  change (d.entries.map fun entry => (entry.1, f entry.2)).lookup key =
    (d.entries.lookup key).map f
  induction d.entries with
  | nil => rfl
  | cons entry rest ih =>
      rw [List.map_cons, lookup_cons_if, lookup_cons_if, ih]
      split <;> rfl

theorem mapValues_set (d : Dict κ α) (f : α → β) (key : κ) (value : α) :
    (d.set key value).mapValues f = (d.mapValues f).set key (f value) := by
  apply ext
  change (setEntry key value d.entries).map _ = setEntry key (f value) (d.entries.map _)
  induction d.entries with
  | nil => rfl
  | cons entry rest ih =>
      rw [setEntry, List.map_cons, setEntry]
      split
      · rfl
      · rw [List.map_cons, ih]

end MapValues

theorem get?_foldl_set (d : Dict κ α) (keys : List κ) (value : α) (key : κ) :
    (keys.foldl (fun d key => d.set key value) d).get? key =
      if key ∈ keys then some value else d.get? key := by
  induction keys generalizing d with
  | nil => simp
  | cons first keys ih =>
      rw [List.foldl_cons, ih, get?_set]
      by_cases hrest : key ∈ keys
      · simp [hrest]
      · by_cases hfirst : key = first <;> simp [hrest, hfirst]

theorem get?_foldl_erase (d : Dict κ α) (keys : List κ) (key : κ) :
    (keys.foldl erase d).get? key = if key ∈ keys then none else d.get? key := by
  induction keys generalizing d with
  | nil => simp
  | cons first keys ih =>
      rw [List.foldl_cons, ih, get?_erase]
      by_cases hrest : key ∈ keys
      · simp [hrest]
      · by_cases hfirst : key = first <;> simp [hrest, hfirst]

end Dict

end ComputeKernel.Lib
