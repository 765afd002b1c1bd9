import WovenHat.Library.NameTree
import WovenHat.Model.Vfs.Operations
import WovenHat.Verification.Vfs.Paths
import WovenHat.Verification.Vfs.Registry

/-! # The namespace invariant

The named nodes of a registry form a tree of canonical paths, and a disk-backed node
is backed by its own path. Every registry method keeps this. -/

namespace WovenHat.Vfs

open Library SeparatedPath Registry Node

def components (path : Str) : List Str :=
  if path = rootPath then [] else path.tail.splitOn slash

variable {cs : List Str}

theorem components_render (h : Proper slash cs) : components (render slash cs) = cs := by
  by_cases hne : cs = []
  · subst hne
    rfl
  have hroot : render slash cs ≠ rootPath := by
    intro hroot
    exact hne (render_injective h (by simp [Proper]) hroot)
  rw [components, if_neg hroot, render_of_ne_nil hne, splitOn_tail_suffix hne h.sep_free]

def Node.Named (n : Node) : Prop :=
  n.occupied = true ∧ n.path ≠ []

instance (n : Node) : Decidable n.Named :=
  inferInstanceAs (Decidable (_ ∧ _))

def Node.name (n : Node) : Option (List Str) :=
  if n.Named then some (components n.path) else none

theorem Node.name_eq_none {n : Node} (h : ¬ n.Named) : n.name = none := by
  simp [name, h]

theorem Node.name_render {n : Node} (hn : n.occupied = true)
    (hp : n.path = render slash cs) (hcs : Proper slash cs) : n.name = some cs := by
  obtain ⟨rest, hrest⟩ := head_render slash cs
  have hnamed : n.Named := ⟨hn, by simp [hp, hrest]⟩
  rw [name, if_pos hnamed, hp, components_render hcs]

def Registry.Branch (r : Registry) (i : NodeId) : Prop :=
  (r.nodes i).kind = .directory

structure Consistent (r : Registry) : Prop where
  tree : NameTree (fun i => (r.nodes i).name) r.Branch
  canonical : ∀ i, (r.nodes i).Named → validateAbsolutePath (r.nodes i).path = .ok ()
  backing : ∀ i p, (r.nodes i).backing = some p → (r.nodes i).Named ∧ p = (r.nodes i).path

namespace Consistent

variable {r : Registry} {i : NodeId} {cs : List Str} {c : Str} {n : Node} {r' : Registry}

theorem named (h : Consistent r) (hi : (r.nodes i).Named) :
    ∃ cs, Canonical cs ∧ (r.nodes i).path = render slash cs ∧ (r.nodes i).name = some cs ∧
      (r.nodes i).path.length ≤ pathCapacity := by
  obtain ⟨cs, hcs, hpath, hlen⟩ := (validateAbsolutePath_iff _).mp (h.canonical i hi)
  exact ⟨cs, hcs, hpath, name_render hi.1 hpath hcs.proper, hlen⟩

theorem of_name (h : Consistent r) (hi : (r.nodes i).name = some cs) :
    (r.nodes i).Named ∧ Canonical cs ∧ (r.nodes i).path = render slash cs := by
  have hnamed : (r.nodes i).Named := by
    by_contra hn
    simp [name, hn] at hi
  obtain ⟨ds, hds, hpath, hname, -⟩ := h.named hnamed
  rw [hname, Option.some.injEq] at hi
  subst hi
  exact ⟨hnamed, hds, hpath⟩

theorem fresh (h : Consistent r) (hfresh : ∀ i, (r.nodes i).matchesPath (render slash cs) = false)
    (i : NodeId) : (r.nodes i).name ≠ some cs := by
  intro hi
  obtain ⟨hnamed, -, hpath⟩ := h.of_name hi
  have hmatch := matchesPath_iff.mpr ⟨hnamed.1, hpath⟩
  rw [hfresh i] at hmatch
  simp at hmatch

theorem path_inj (h : Consistent r) {j : NodeId} (hi : (r.nodes i).Named)
    (hj : (r.nodes j).Named) (hij : (r.nodes i).path = (r.nodes j).path) : i = j := by
  obtain ⟨cs, hcs, hpi, hni, -⟩ := h.named hi
  obtain ⟨ds, hds, hpj, hnj, -⟩ := h.named hj
  have hcd : cs = ds := render_injective hcs.proper hds.proper (by rw [← hpi, ← hpj, hij])
  subst hcd
  exact h.tree.unique i j cs hni hnj

theorem branch_of_checkParent (hcs : Canonical (cs ++ [c]))
    (hparent : r.checkParent (render slash (cs ++ [c])) = .ok ()) :
    ∃ k, (r.nodes k).name = some cs ∧ r.Branch k := by
  obtain ⟨parent, k, htext, hocc, hpath, hdir⟩ := checkParent_ok hparent
  rw [parentPath_render hcs.proper, Option.some.injEq] at htext
  subst htext
  exact ⟨k, name_render hocc hpath (canonical_append.mp hcs).1.proper, hdir⟩

/-! ## Changing one node -/

omit r in
theorem name_setNode (r : Registry) (index : NodeId) (n : Node) :
    (fun i => ((r.setNode index n).nodes i).name) =
      Function.update (fun i => (r.nodes i).name) index n.name := by
  funext i
  by_cases hi : i = index
  · subst hi
    simp
  · rw [Function.update_of_ne hi, setNode_of_ne r n hi]

/-- One changed node: the tree, its path and its backing have to be right again. -/
theorem setNode (h : Consistent r) (index : NodeId) (n : Node)
    (htree : NameTree (Function.update (fun i => (r.nodes i).name) index n.name)
      (r.setNode index n).Branch) (hvalid : n.Named → validateAbsolutePath n.path = .ok ())
    (hback : ∀ p, n.backing = some p → n.Named ∧ p = n.path) : Consistent (r.setNode index n) := by
  refine ⟨by rw [name_setNode]; exact htree, ?_, ?_⟩
  · intro i hi
    by_cases hii : i = index
    · subst hii
      rw [setNode_self] at hi ⊢
      exact hvalid hi
    · rw [setNode_of_ne r n hii] at hi ⊢
      exact h.canonical i hi
  · intro i p hp
    by_cases hii : i = index
    · subst hii
      rw [setNode_self] at hp ⊢
      exact hback p hp
    · rw [setNode_of_ne r n hii] at hp ⊢
      exact h.backing i p hp

variable {index : NodeId} {path : Str}

theorem branch_of_ne (i : NodeId) (hi : i ≠ index) (hb : r.Branch i) :
    (r.setNode index n).Branch i := by
  simpa [Registry.Branch, setNode_of_ne r n hi] using hb

theorem setNode_new (h : Consistent r)
    (hfree : (r.nodes index).occupied = false) (hcs : Canonical (cs ++ [c]))
    (hvalid : validateAbsolutePath (render slash (cs ++ [c])) = .ok ())
    (hfresh : ∀ i, (r.nodes i).matchesPath (render slash (cs ++ [c])) = false)
    (hparent : r.checkParent (render slash (cs ++ [c])) = .ok ())
    (hocc : n.occupied = true) (hpath : n.path = render slash (cs ++ [c]))
    (hback : ∀ p ∈ n.backing, p = render slash (cs ++ [c])) : Consistent (r.setNode index n) := by
  obtain ⟨k, hk, hbranch⟩ := branch_of_checkParent hcs hparent
  have hname : n.name = some (cs ++ [c]) := name_render hocc hpath hcs.proper
  have hnamed : n.Named := by
    by_contra hn
    simp [name, hn] at hname
  apply h.setNode index n
  · rw [hname]
    have hnone := name_eq_none (n := r.nodes index) (by simp [Node.Named, hfree])
    exact h.tree.insert hnone (h.fresh hfresh) hk hbranch branch_of_ne
  · intro _
    rw [hpath]
    exact hvalid
  · exact fun p hp => ⟨hnamed, by rw [hpath, hback p hp]⟩

theorem setNode_unnamed (h : Consistent r) (hindex : (r.nodes index).name = some cs) (hcs : cs ≠ [])
    (hleaf : ∀ i c, (r.nodes i).name ≠ some (cs ++ [c]))
    (hn : ¬ n.Named) (hback : n.backing = none) : Consistent (r.setNode index n) := by
  apply h.setNode index n
  · rw [name_eq_none hn]
    exact h.tree.erase hindex hcs hleaf branch_of_ne
  · exact fun hnamed => (hn hnamed).elim
  · intro p hp
    simp [hback] at hp

theorem file_leaf (h : Consistent r)
    (hindex : (r.nodes index).name = some cs) (hfile : (r.nodes index).kind = .file)
    {ds : List Str} (hds : ds ≠ []) : (r.nodes i).name ≠ some (cs ++ ds) := by
  intro hi
  obtain ⟨j, hj, hbranch⟩ := h.tree.ancestor hi hds
  obtain rfl := h.tree.unique j index cs hj hindex
  simp [Registry.Branch, hfile] at hbranch

/-- Contents, length and permission do not matter, and a backing may be dropped. -/
theorem congr (h : Consistent r) (hnode : ∀ i, (r'.nodes i).occupied = (r.nodes i).occupied ∧
    (r'.nodes i).kind = (r.nodes i).kind ∧ (r'.nodes i).path = (r.nodes i).path ∧
    ((r'.nodes i).backing = none ∨ (r'.nodes i).backing = (r.nodes i).backing)) :
    Consistent r' := by
  have hnamed : ∀ i, (r'.nodes i).Named ↔ (r.nodes i).Named := by
    intro i
    obtain ⟨hocc, -, hpath, -⟩ := hnode i
    simp only [Node.Named, hocc, hpath]
  refine ⟨h.tree.congr (fun i => ?_) fun i _ _ hb => (hnode i).2.1.trans hb, fun i hi => ?_,
    fun i p hp => ?_⟩
  · simp only [name, hnamed, (hnode i).2.2.1]
  · rw [(hnode i).2.2.1]
    exact h.canonical i ((hnamed i).mp hi)
  rcases (hnode i).2.2.2 with hnone | hsame
  · simp [hnone] at hp
  · rw [hnamed, (hnode i).2.2.1]
    exact h.backing i p (hsame ▸ hp)

/-! ## The registry methods -/

theorem new_path (h : Consistent r) (hvalid : validateAbsolutePath path = .ok ())
    (hfresh : ∀ i, (r.nodes i).matchesPath path = false) :
    ∃ cs c, Canonical (cs ++ [c]) ∧ path = render slash (cs ++ [c]) := by
  obtain ⟨cs, hcs, rfl, -⟩ := (validateAbsolutePath_iff path).mp hvalid
  rcases List.eq_nil_or_concat cs with rfl | ⟨cs, c, rfl⟩
  · obtain ⟨i, hi, -⟩ := h.tree.root
    exact (h.fresh hfresh i hi).elim
  · rw [List.concat_eq_append] at hcs ⊢
    exact ⟨cs, c, hcs, rfl⟩

omit r in
theorem render_ne_root (h : Proper slash (cs ++ [c])) : render slash (cs ++ [c]) ≠ rootPath := by
  intro hroot
  have hnil := render_injective h (by simp [Proper] : Proper slash []) hroot
  simp at hnil

theorem placed (h : Consistent r) (hfree : (r.nodes index).occupied = false)
    (hvalid : validateAbsolutePath path = .ok ())
    (hfresh : ∀ i, (r.nodes i).matchesPath path = false)
    (hparent : path ≠ rootPath → r.checkParent path = .ok ()) (hocc : n.occupied = true)
    (hpath : n.path = path) (hback : ∀ p ∈ n.backing, p = path ∨ (r.nodes index).backing = some p) :
    Consistent (r.setNode index n) := by
  obtain ⟨cs, c, hcs, rfl⟩ := h.new_path hvalid hfresh
  refine h.setNode_new hfree hcs hvalid hfresh (hparent (render_ne_root hcs.proper)) hocc hpath
    fun p hp => (hback p hp).resolve_right fun hold => ?_
  have hnamed := (h.backing index p hold).1.1
  simp [hfree] at hnamed

theorem removable_leaf (h : Consistent r) (hok : r.removableIndex path = .ok index) :
    ∃ cs, (r.nodes index).name = some cs ∧ cs ≠ [] ∧
      ∀ i c, (r.nodes i).name ≠ some (cs ++ [c]) := by
  obtain ⟨hvalid, hroot, hmatch, hempty⟩ := removableIndex_ok hok
  obtain ⟨hocc, hpath⟩ := matchesPath_iff.mp hmatch
  obtain ⟨cs, hcs, rfl, -⟩ := (validateAbsolutePath_iff path).mp hvalid
  have hname : (r.nodes index).name = some cs := name_render hocc hpath hcs.proper
  refine ⟨cs, hname, ?_, ?_⟩
  · rintro rfl
    exact hroot rfl
  intro i c hi
  cases hkind : (r.nodes index).kind with
  | file => exact h.file_leaf hname hkind (by simp) hi
  | directory =>
    obtain ⟨hnamed, hds, hchild⟩ := h.of_name hi
    have hnone := hempty hkind i hnamed.1
    rw [hchild, (immediateChildName_render hcs.proper hds.proper).mpr rfl] at hnone
    simp at hnone

theorem remove (h : Consistent r) (hok : r.remove path = .ok r') : Consistent r' := by
  obtain ⟨index, generation, hindex, -, rfl⟩ := remove_ok hok
  obtain ⟨cs, hname, hcs, hleaf⟩ := h.removable_leaf hindex
  have herased := h.setNode_unnamed (n := { r.nodes index with
    occupied := false, path := [], length := 0, backing := none, writable := false,
    data := Buffer.zero }) hname hcs hleaf (by simp [Node.Named]) rfl
  exact herased.congr fun _ => ⟨rfl, rfl, rfl, .inr rfl⟩

end Consistent

end WovenHat.Vfs
