import WovenHat.Verification.Vfs.Namespace

/-! # Renaming keeps the namespace

`rename` rewrites the text of every path below the old one. On component lists this
moves a whole subtree, whose new place the checks have found free and outside it. -/

namespace WovenHat.Vfs

open Library SeparatedPath NameTree Registry

namespace Registry

variable {directory : Bool}

theorem renamePath_below {os ns qs : List Str} (hos : os ≠ []) (hns : ns ≠ [])
    (ho : Proper slash (os ++ qs)) (hdir : directory = true ∨ qs = []) :
    renamePath (render slash os) (render slash ns) directory (render slash (os ++ qs)) =
      render slash (ns ++ qs) := by
  have hpo := (proper_append.mp ho).1
  have htext : render slash (os ++ qs) = render slash os ++ suffix slash qs :=
    (render_eq_append hpo ho hos (boundary_suffix qs)).mpr ⟨qs, rfl, rfl⟩
  have hmoved : (render slash (os ++ qs) == render slash os ||
      (directory && (descendantSuffix (render slash os) (render slash (os ++ qs))).isSome)) =
      true := by
    by_cases hqs : qs = []
    · simp [hqs]
    rcases hdir with hdir | hdir
    · have hsome := (descendantSuffix_isSome hpo ho hos).mpr ⟨qs, hqs, rfl⟩
      simp [hdir, hsome]
    · exact (hqs hdir).elim
  rw [renamePath, if_pos hmoved, htext, List.drop_left, render_of_ne_nil hns,
    render_of_ne_nil (by simp [hns]), suffix_append]

theorem renamePath_outside {os ps : List Str} {new : Str} (hos : os ≠ [])
    (ho : Proper slash os) (hp : Proper slash ps) (hout : ¬ os <+: ps) :
    renamePath (render slash os) new directory (render slash ps) = render slash ps := by
  have hne : render slash ps ≠ render slash os := by
    intro heq
    rw [render_injective hp ho heq] at hout
    exact hout (List.prefix_refl os)
  have hnone : (descendantSuffix (render slash os) (render slash ps)).isSome = false := by
    rw [← Bool.not_eq_true, descendantSuffix_isSome ho hp hos]
    rintro ⟨qs, -, rfl⟩
    exact hout (List.prefix_append os qs)
  rw [renamePath, if_neg (by simp [hne, hnone])]

variable {old new : Str}

theorem renamePath_nil (hold : old ≠ []) : renamePath old new directory [] = [] := by
  have hnone : descendantSuffix old [] = none := by
    simp [descendantSuffix, stripPrefix, hold]
  rw [renamePath, if_neg (by simpa [hnone] using hold)]

end Registry

structure RenameSpec (r : Registry) (old new : Str) (index : NodeId) (os ns : List Str)
    (c : Str) : Prop where
  old_eq : old = render slash os
  new_eq : new = render slash (ns ++ [c])
  old_canonical : Canonical os
  new_canonical : Canonical (ns ++ [c])
  old_ne : os ≠ []
  new_length : new.length ≤ pathCapacity
  renamed : (r.nodes index).name = some os
  fresh : ∀ i, (r.nodes i).name ≠ some (ns ++ [c])
  parent : ∃ k, (r.nodes k).name = some ns ∧ r.Branch k
  outside : ¬ os <+: ns ++ [c]
  fits : ∀ i qs, (r.nodes i).name = some (os ++ qs) → (r.nodes index).kind = .directory →
    new.length + (suffix slash qs).length ≤ pathCapacity

theorem Consistent.renameSpec {r : Registry} (h : Consistent r)
    (hok : r.validateRename old new = .ok ()) (hne : old ≠ new) {index : NodeId}
    (hindex : r.position (·.matchesPath old) = some index) :
    ∃ os ns c, RenameSpec r old new index os ns c := by
  obtain ⟨hold, hnew, hroot, hroot', hfresh, hout, hparent, index', hindex', hfit⟩ :=
    validateRename_ok hok hne
  obtain rfl : index = index' := Option.some.inj (hindex.symm.trans hindex')
  obtain ⟨os, hos, rfl, -⟩ := (validateAbsolutePath_iff old).mp hold
  obtain ⟨ms, hms, rfl, hlen⟩ := (validateAbsolutePath_iff new).mp hnew
  have hosne : os ≠ [] := by
    rintro rfl
    exact hroot rfl
  rcases List.eq_nil_or_concat ms with rfl | ⟨ns, c, rfl⟩
  · exact (hroot' rfl).elim
  rw [List.concat_eq_append] at *
  obtain ⟨hocc, hpath⟩ := matchesPath_iff.mp (position_some hindex)
  refine ⟨os, ns, c, rfl, rfl, hos, hms, hosne, hlen, Node.name_render hocc hpath hos.proper,
    h.fresh hfresh, Consistent.branch_of_checkParent hms hparent, ?_, ?_⟩
  · rintro ⟨qs, hqs⟩
    by_cases hnil : qs = []
    · subst hnil
      exact hne (by rw [← hqs, List.append_nil])
    · have hsome := (descendantSuffix_isSome hos.proper hms.proper hosne).mpr ⟨qs, hnil, hqs.symm⟩
      simp [hout] at hsome
  · intro i qs hi hdir
    obtain ⟨hnamed, hcs, htext⟩ := h.of_name hi
    by_cases hnil : qs = []
    · subst hnil
      simpa using hlen
    have hsuffix := (descendantSuffix_render hos.proper hcs.proper hosne).mpr ⟨qs, hnil, rfl, rfl⟩
    have hnode := hfit i
    simp only [renamePreflight, hnamed.1, Bool.true_and, Bool.or_eq_false_iff,
      renameTooLong, hdir, beq_self_eq_true, if_true, htext, hsuffix,
      decide_eq_false_iff_not, not_lt, gt_iff_lt] at hnode
    exact hnode.1

section

variable {r : Registry} {old new : Str} {index : NodeId} {os ns : List Str} {c : Str}

def Registry.renamed (r : Registry) (old new : Str) (index : NodeId) : Registry :=
  r.renameNodes old new ((r.nodes index).kind == .directory)

variable {i : NodeId}

section Spec

variable (spec : RenameSpec r old new index os ns c)

include spec

/-- The text of a named node follows its position in the tree. -/
theorem RenameSpec.path (h : Consistent r) {ps : List Str} (hi : (r.nodes i).name = some ps) :
    ((r.renamed old new index).nodes i).path = render slash (relocate os (ns ++ [c]) ps) ∧
      Canonical (relocate os (ns ++ [c]) ps) ∧
      (render slash (relocate os (ns ++ [c]) ps)).length ≤ pathCapacity := by
  obtain ⟨hnamed, hps, hpath⟩ := h.of_name hi
  obtain ⟨-, -, hpath', -, hlen⟩ := h.named hnamed
  have hnode : ((r.renamed old new index).nodes i).path =
      Registry.renamePath (render slash os) (render slash (ns ++ [c]))
        ((r.nodes index).kind == .directory) (render slash ps) := by
    simp [Registry.renamed, Registry.renameNodes, Registry.renameNode, hnamed.1, spec.old_eq,
      spec.new_eq, hpath]
  rcases relocate_cases os (ns ++ [c]) ps with ⟨qs, rfl, hmove⟩ | ⟨hout, hmove⟩
  · -- below a file there is only the file itself
    have hdir : ((r.nodes index).kind == .directory) = true ∨ qs = [] := by
      cases hkind : (r.nodes index).kind with
      | directory => exact .inl rfl
      | file =>
        right
        by_contra hqs
        exact h.file_leaf spec.renamed hkind hqs hi
    have hcanon : Canonical (ns ++ [c] ++ qs) :=
      canonical_append.mpr ⟨spec.new_canonical, (canonical_append.mp hps).2⟩
    rw [hmove]
    refine ⟨?_, hcanon, ?_⟩
    · rw [hnode, renamePath_below spec.old_ne (by simp) hps.proper hdir]
    have htext : render slash (ns ++ [c] ++ qs) = new ++ suffix slash qs := by
      rw [spec.new_eq]
      exact (render_eq_append spec.new_canonical.proper hcanon.proper (by simp)
        (boundary_suffix qs)).mpr ⟨qs, rfl, rfl⟩
    rw [htext, List.length_append]
    rcases hdir with hdir | rfl
    · exact spec.fits i qs hi (by simpa using hdir)
    · simpa using spec.new_length
  · rw [hmove]
    refine ⟨?_, hps, hpath ▸ hlen⟩
    rw [hnode, renamePath_outside spec.old_ne spec.old_canonical.proper hps.proper hout]

theorem RenameSpec.unnamed
    (hi : ¬ (r.nodes i).Named) : ¬ ((r.renamed old new index).nodes i).Named := by
  have hold : old ≠ [] := by
    obtain ⟨rest, hrest⟩ := head_render slash os
    simp [spec.old_eq, hrest]
  rintro ⟨hocc, hpath⟩
  simp only [Registry.renamed, Registry.renameNodes, Registry.renameNode] at hocc hpath
  by_cases hused : (r.nodes i).occupied = true
  · have hnil : (r.nodes i).path = [] := by
      by_contra hne
      exact hi ⟨hused, hne⟩
    simp [hused, hnil, renamePath_nil hold] at hpath
  · simp [hused] at hocc

/-- On the tree of names a rename moves one subtree. -/
theorem RenameSpec.name (h : Consistent r) (i : NodeId) : ((r.renamed old new index).nodes i).name =
      ((r.nodes i).name).map (relocate os (ns ++ [c])) := by
  by_cases hi : (r.nodes i).Named
  · obtain ⟨ps, hps, hpath, hname, -⟩ := h.named hi
    obtain ⟨htext, hcanon, -⟩ := spec.path h hname
    have hocc : ((r.renamed old new index).nodes i).occupied = true := by
      simp [Registry.renamed, Registry.renameNodes, Registry.renameNode, hi.1]
    rw [Node.name_render hocc htext hcanon.proper, hname, Option.map_some]
  · rw [Node.name_eq_none hi, Node.name_eq_none (spec.unnamed hi), Option.map_none]

theorem RenameSpec.consistent (h : Consistent r) : Consistent (r.renamed old new index) := by
  have hkind : (r.renamed old new index).Branch = r.Branch := by
    funext i
    simp only [Registry.Branch, Registry.renamed, Registry.renameNodes, Registry.renameNode]
    split <;> rfl
  refine ⟨?_, ?_, ?_⟩
  · obtain ⟨k, hk, hbranch⟩ := spec.parent
    rw [hkind, show (fun i => ((r.renamed old new index).nodes i).name) =
      fun i => ((r.nodes i).name).map (relocate os (ns ++ [c])) from funext (spec.name h)]
    exact h.tree.move spec.old_ne spec.fresh hk hbranch spec.outside
  · intro i hi
    have hnamed : (r.nodes i).Named := by
      by_contra hn
      exact spec.unnamed hn hi
    obtain ⟨ps, -, -, hname, -⟩ := h.named hnamed
    obtain ⟨htext, hcanon, hlen⟩ := spec.path h hname
    exact (validateAbsolutePath_iff _).mpr ⟨_, hcanon, htext, htext ▸ hlen⟩
  · intro i p hp
    simp only [Registry.renamed, Registry.renameNodes, Registry.renameNode] at hp
    by_cases hocc : (r.nodes i).occupied = true
    · simp only [hocc, if_true, Option.map_eq_some_iff] at hp
      obtain ⟨q, hq, rfl⟩ := hp
      obtain ⟨hnamed, rfl⟩ := h.backing i q hq
      obtain ⟨ps, -, -, hname, -⟩ := h.named hnamed
      refine ⟨?_, by simp [Registry.renamed, Registry.renameNodes, Registry.renameNode, hocc]⟩
      by_contra hn
      have hnone := spec.name h i
      rw [Node.name_eq_none hn, hname] at hnone
      simp at hnone
    · simp only [hocc] at hp
      exact (hocc (h.backing i p hp).1.1).elim

end Spec

end

theorem Consistent.rename {r r' : Registry} (h : Consistent r)
    (hok : r.rename old new = .ok r') : Consistent r' := by
  obtain ⟨hvalid, ⟨-, rfl⟩ | ⟨hne, index, hindex, rfl⟩⟩ := rename_ok hok
  · exact h
  · obtain ⟨os, ns, c, spec⟩ := h.renameSpec hvalid hne hindex
    exact spec.consistent h

end WovenHat.Vfs
