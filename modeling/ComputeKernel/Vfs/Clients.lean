import ComputeKernel.Vfs.Refinement

/-!
# Clients in directories of their own

Clients that keep to paths below directories of their own, none of which lies below another's,
cannot tell whether the others are there.  It is shown for file stores, and carried to the
VFS by the refinement.
-/

namespace ComputeKernel.Vfs

open Lib Lib.Service Fs

namespace FileRequest

/-- The request names a path, and what it looks at and makes lies below `home`. -/
def Confined (home : List Str) : FileRequest → Prop
  | .mkdir path => home <+: newNames path
  | .createFile path _ => home <+: newNames path
  | .writePath path _ => home <+: pathNames path ∧ home <+: newNames path
  | .readPath path _ => home <+: pathNames path
  | .stat path => home <+: pathNames path
  | .readdir path => home <+: pathNames path
  | .open_ _ _ => False
  | .read _ _ => False
  | .write _ _ => False
  | .close _ => False

instance (home : List Str) : DecidablePred (Confined home) := fun request => by
  cases request <;> unfold Confined <;> infer_instance

end FileRequest

namespace FileStore

structure Agree (home : List Str) (s t : FileStore) : Prop where
  tree : ∀ names, home <+: names → s.tree names = t.tree names
  listing : ∀ names, home <+: names → s.listing names = t.listing names
  parent : s.tree home.dropLast = t.tree home.dropLast

theorem Agree.refl (home : List Str) (s : FileStore) : Agree home s s :=
  ⟨fun _ _ => rfl, fun _ _ => rfl, rfl⟩

theorem prefix_dropLast {home names : List Str} (h : home <+: names) :
    names = home ∨ home <+: names.dropLast := by
  obtain ⟨rest, rfl⟩ := h
  rcases List.eq_nil_or_concat' rest with rfl | ⟨init, name, rfl⟩
  · exact Or.inl (List.append_nil home)
  · rw [← List.append_assoc, List.dropLast_concat]
    exact Or.inr (List.prefix_append home init)

variable {home : List Str} {s t : FileStore}

/-! ## Requests from inside -/

theorem Agree.canAttach_iff (h : Agree home s t) {names : List Str} (hnames : home <+: names) :
    NameTree.CanAttach Node.IsDir s.tree names ↔ NameTree.CanAttach Node.IsDir t.tree names := by
  have hparent : s.tree names.dropLast = t.tree names.dropLast := by
    rcases prefix_dropLast hnames with rfl | hinit
    · exact h.parent
    · exact h.tree _ hinit
  unfold NameTree.CanAttach
  rw [h.tree names hnames, hparent]

theorem update_agree {α : Type} {f g : List Str → α} {names other : List Str} {a b : α}
    (hab : a = b) (h : f other = g other) :
    Function.update f names a other = Function.update g names b other := by
  rw [hab]
  by_cases hother : other = names
  · rw [hother, Function.update_self, Function.update_self]
  · rw [Function.update_of_ne hother, Function.update_of_ne hother, h]

theorem Agree.make (h : Agree home s t) {names : List Str} (hnames : home <+: names)
    (node : Node) : (s.make names node).1 = (t.make names node).1 ∧
      Agree home (s.make names node).2 (t.make names node).2 := by
  by_cases hcan : NameTree.CanAttach Node.IsDir s.tree names
  · have hcan' := (h.canAttach_iff hnames).mp hcan
    rw [make_of_can hcan, make_of_can hcan', attach, attach, if_pos hcan, if_pos hcan']
    refine ⟨rfl, fun other hother => update_agree rfl (h.tree other hother), ?_,
      update_agree rfl h.parent⟩
    intro other hother
    rcases prefix_dropLast hnames with hhome | hinit
    · -- the directory that gets the name is outside, or it is the root
      have hne : other ≠ names.dropLast := by
        rintro rfl
        have hlt : names.dropLast.length < names.length := by
          rw [List.length_dropLast]
          have := List.length_pos_iff.mpr hcan.1
          omega
        have hle := hother.length_le
        rw [← hhome] at hle
        omega
      change Function.update _ _ _ _ = Function.update _ _ _ _
      rw [Function.update_of_ne hne, Function.update_of_ne hne, h.listing other hother]
    · exact update_agree (by rw [h.listing _ hinit]) (h.listing other hother)
  · have hcan' := fun hyes => hcan ((h.canAttach_iff hnames).mpr hyes)
    rw [make_of_not_can hcan, make_of_not_can hcan']
    exact ⟨rfl, h⟩

theorem Agree.put (h : Agree home s t) {names : List Str} (data : Bytes) :
    Agree home (s.put names data) (t.put names data) where
  tree other hother := update_agree rfl (h.tree other hother)
  listing := h.listing
  parent := update_agree rfl h.parent

theorem Agree.writePath (h : Agree home s t) {path : Str} (hpath : home <+: pathNames path)
    (hnew : home <+: newNames path) (data : Bytes) :
    (s.writePath path data).1 = (t.writePath path data).1 ∧
      Agree home (s.writePath path data).2 (t.writePath path data).2 := by
  unfold FileStore.writePath
  rw [h.tree _ hpath]
  split
  · obtain ⟨hcreated, hafter⟩ := h.make hnew (.file, data)
    dsimp only
    rw [hcreated]
    exact ⟨rfl, hafter⟩
  · exact ⟨rfl, h.put _⟩
  · exact ⟨rfl, h⟩

theorem Agree.serve (h : Agree home s t) {request : FileRequest}
    (hconfined : request.Confined home) :
    (s.serve request).1 = (t.serve request).1 ∧
      Agree home (s.serve request).2 (t.serve request).2 := by
  cases request with
  | mkdir path =>
      obtain ⟨hcreated, hafter⟩ := h.make hconfined (.dir, [])
      exact ⟨congrArg FileReply.flag hcreated, hafter⟩
  | createFile path content =>
      obtain ⟨hcreated, hafter⟩ := h.make hconfined (.file, content)
      exact ⟨congrArg FileReply.flag hcreated, hafter⟩
  | writePath path data => exact h.writePath hconfined.1 hconfined.2 data
  | readPath path size =>
      refine ⟨?_, h⟩
      change FileReply.data (s.readPath path size) = .data (t.readPath path size)
      rw [FileStore.readPath, FileStore.readPath, h.tree _ hconfined]
  | stat path =>
      refine ⟨?_, h⟩
      change FileReply.node _ = .node _
      rw [h.tree _ hconfined]
  | readdir path =>
      refine ⟨?_, h⟩
      change FileReply.names (s.readdir path) = .names (t.readdir path)
      rw [FileStore.readdir, FileStore.readdir, h.tree _ hconfined, h.listing _ hconfined]
  | open_ path flags => exact hconfined.elim
  | read fd size => exact hconfined.elim
  | write fd data => exact hconfined.elim
  | close fd => exact hconfined.elim

/-! ## Requests from outside -/

variable {away : List Str}

def Apart (home away : List Str) : Prop :=
  ¬ home <+: away ∧ ¬ away <+: home

theorem not_prefix_of_apart (h : Apart home away) {names : List Str} (hnames : away <+: names) :
    ¬ home <+: names := by
  intro hhome
  rcases List.prefix_or_prefix_of_prefix hhome hnames with hbelow | habove
  · exact h.1 hbelow
  · exact h.2 habove

theorem Agree.of_changed (h : Agree home s t) (hapart : Apart home away) {names : List Str}
    (hnames : away <+: names) (node : Option Node) (list : List Str) :
    Agree home { s with
      tree := Function.update s.tree names node
      listing := Function.update s.listing names.dropLast list } t where
  tree other hother := by
    have hne : other ≠ names := by
      rintro rfl
      exact not_prefix_of_apart hapart hnames hother
    exact (Function.update_of_ne hne _ _).trans (h.tree other hother)
  listing other hother := by
    have hne : other ≠ names.dropLast := by
      rintro rfl
      exact not_prefix_of_apart hapart hnames (hother.trans (List.dropLast_prefix names))
    exact (Function.update_of_ne hne _ _).trans (h.listing other hother)
  parent := by
    have hne : home.dropLast ≠ names := by
      rintro rfl
      exact hapart.2 (hnames.trans (List.dropLast_prefix home))
    exact (Function.update_of_ne hne _ _).trans h.parent

theorem Agree.make_outside (h : Agree home s t) (hapart : Apart home away) {names : List Str}
    (hnames : away <+: names) (node : Node) : Agree home (s.make names node).2 t := by
  by_cases hcan : NameTree.CanAttach Node.IsDir s.tree names
  · rw [make_of_can hcan, attach, if_pos hcan]
    exact h.of_changed hapart hnames _ _
  · rw [make_of_not_can hcan]
    exact h

theorem Agree.put_outside (h : Agree home s t) (hapart : Apart home away) {names : List Str}
    (hnames : away <+: names) (data : Bytes) : Agree home (s.put names data) t := by
  have hchanged := h.of_changed hapart hnames (some (.file, data))
    (s.listing names.dropLast)
  rwa [Function.update_eq_self] at hchanged

theorem Agree.serve_outside (h : Agree home s t) (hapart : Apart home away)
    {request : FileRequest} (hconfined : request.Confined away) :
    Agree home (s.serve request).2 t := by
  cases request with
  | mkdir path => exact h.make_outside hapart hconfined _
  | createFile path content => exact h.make_outside hapart hconfined _
  | writePath path data =>
      change Agree home (s.writePath path data).2 t
      unfold FileStore.writePath
      split
      · exact h.make_outside hapart hconfined.2 _
      · exact h.put_outside hapart hconfined.1 _
      · exact h
  | readPath path size => exact h
  | stat path => exact h
  | readdir path => exact h
  | open_ path flags => exact hconfined.elim
  | read fd size => exact hconfined.elim
  | write fd data => exact hconfined.elim
  | close fd => exact hconfined.elim

end FileStore

namespace VFS

open FileStore

variable {ι : Type}

theorem separate_of_apart {home : ι → List Str}
    (hhome : ∀ i j, i ≠ j → Apart (home i) (home j)) (i : ι) :
    Separate (Prod.fst : ι × FileRequest → ι) i (tagged FileStore.serve)
      (fun _ request => request.2.Confined (home request.1)) (Agree (home i)) where
  reply := by
    rintro s t ⟨client, request⟩ hconfined rfl hst
    exact (hst.serve hconfined).1
  own := by
    rintro s t ⟨client, request⟩ hconfined rfl hst
    exact (hst.serve hconfined).2
  others := by
    rintro s t ⟨client, request⟩ hconfined hother hst
    exact hst.serve_outside (hhome i client (Ne.symm hother)) hconfined

variable [DecidableEq ι]

/-- After any requests to a new tmpfs, clients confined to homes apart get in every
interleaving the replies that each would get without the others. -/
theorem clients_isolated (source : Str) (setup : List FileRequest) {home : ι → List Str}
    (hhome : ∀ i j, i ≠ j → Apart (home i) (home j)) {requests : List (ι × FileRequest)}
    (hconfined : ∀ request ∈ requests, request.2.Confined (home request.1)) (i : ι) :
    let vfs := after respond (rootVfs source) setup
    repliesTo Prod.fst i (tagged respond) vfs requests =
      replies respond vfs ((requestsOf Prod.fst i requests).map Prod.snd) := by
  intro vfs
  have hrepresents : Represents vfs (after FileStore.serve FileStore.init setup) :=
    refines_fileStore.after (represents_rootVfs source) setup
  rw [refines_fileStore.tagged.repliesTo_eq hrepresents,
    (separate_of_apart hhome i).repliesTo_eq (Agree.refl _ _)
      (Run.guarded_of_forall (fun request hrequest _ => hconfined request hrequest) _),
    replies_tagged,
    refines_fileStore.replies_eq hrepresents]

def homes (client : Bool) : List Str :=
  if client then ["a".toList] else ["b".toList]

/-- Two clients under `/a` and `/b`, each with a file `f`. -/
theorem clients_isolated_homes :
    let requests : List (Bool × FileRequest) :=
      [(true, .createFile "/a/f".toList [1]), (false, .createFile "/b/f".toList [2]),
        (true, .writePath "/a/f".toList [3, 4]), (false, .readPath "/b/f".toList 9),
        (true, .readPath "/a/f".toList 9)]
    let vfs := after respond (rootVfs "tmpfs".toList) [.mkdir "/a".toList, .mkdir "/b".toList]
    repliesTo Prod.fst true (tagged respond) vfs requests =
        replies respond vfs ((requestsOf Prod.fst true requests).map Prod.snd) ∧
      repliesTo Prod.fst true (tagged respond) vfs requests =
        [.flag true, .count 2, .data (some [3, 4])] := by
  intro requests vfs
  have hapart : ∀ i j, i ≠ j → Apart (homes i) (homes j) := by
    intro i j hne
    cases i <;> cases j <;> first | exact absurd rfl hne | exact ⟨by decide, by decide⟩
  have hconfined : ∀ request ∈ requests, request.2.Confined (homes request.1) := by
    decide
  exact ⟨clients_isolated _ _ hapart hconfined true, by decide⟩

end VFS

end ComputeKernel.Vfs
