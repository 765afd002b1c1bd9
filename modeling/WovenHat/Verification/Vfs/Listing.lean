import WovenHat.Verification.Vfs.Invariant

/-! # Listing a directory

`readdir` at the indices below the number of children of a directory gives each child once. -/

namespace WovenHat.Vfs.Registry

open Library SeparatedPath List

/-- The path is that of the directory with one more component. -/
def IsChild (dir path name : Str) : Prop :=
  ∃ ds, Proper slash (ds ++ [name]) ∧ dir = render slash ds ∧ path = render slash (ds ++ [name])

variable {r : Registry} {name : Str} {i : NodeId}

theorem IsChild.path_eq {dir path path' name : Str} (h : IsChild dir path name)
    (h' : IsChild dir path' name) : path = path' := by
  obtain ⟨ds, hds, rfl, rfl⟩ := h
  obtain ⟨es, hes, hdir, rfl⟩ := h'
  rw [render_injective (proper_append.mp hds).1 (proper_append.mp hes).1 hdir]

theorem not_isChild_nil (dir name : Str) : ¬IsChild dir [] name := by
  rintro ⟨es, -, -, hpath⟩
  obtain ⟨rest, hrest⟩ := head_render slash (es ++ [name])
  simp [hrest] at hpath

theorem isChild_render {cs ds : List Str} (hds : Proper slash ds) (hcs : Proper slash cs) :
    IsChild (render slash ds) (render slash cs) name ↔ cs = ds ++ [name] := by
  constructor
  · rintro ⟨es, hes, hdir, hpath⟩
    rw [render_injective hds (proper_append.mp hes).1 hdir]
    exact render_injective hcs hes hpath
  · rintro rfl
    exact ⟨ds, hcs, rfl, rfl⟩

/-- The children of a directory, in the order of the table. -/
def listed (r : Registry) (dir : Str) (nodes : List NodeId) : List (Str × NodeKind) :=
  nodes.filterMap fun i =>
    (immediateChildName dir (r.nodes i).path).map (·, (r.nodes i).kind)

theorem readdirLoop_eq (dir : Str) (nodes : List NodeId) (seen k : ℕ) :
    r.readdirLoop dir (seen + k) nodes seen = match (r.listed dir nodes)[k]? with
      | some (name, kind) => (dirEntry name kind).map .ok
      | none => some (.error .notFound) := by
  induction nodes generalizing seen k with
  | nil => rfl
  | cons i rest ih =>
    rw [readdirLoop]
    cases hname : immediateChildName dir (r.nodes i).path with
    | none =>
      have hlisted : r.listed dir (i :: rest) = r.listed dir rest := by simp [listed, hname]
      rw [hlisted]
      exact ih seen k
    | some name =>
      have hlisted : r.listed dir (i :: rest) = (name, (r.nodes i).kind) :: r.listed dir rest := by
        simp [listed, hname]
      rw [hlisted]
      cases k with
      | zero => simp
      | succ k =>
        have hnext := ih (seen + 1) k
        rw [Nat.add_assoc, Nat.add_comm 1] at hnext
        simpa using hnext

/-- The nodes that `readdir` goes through. -/
def occupiedNodes (r : Registry) : List NodeId :=
  (finRange maxNodes).filter fun i => (r.nodes i).occupied

section Directory

variable (h : Namespace r) {d : NodeId} (hd : (r.nodes d).Named)

include h hd

/-- `immediate_child_name` and `parent_path` agree on what a child is. -/
theorem child_iff (hi : (r.nodes i).occupied = true) :
    (∀ name, immediateChildName (r.nodes d).path (r.nodes i).path = some name ↔
      IsChild (r.nodes d).path (r.nodes i).path name) ∧
    ((∃ name, IsChild (r.nodes d).path (r.nodes i).path name) ↔
      parentPath (r.nodes i).path = some (r.nodes d).path) := by
  obtain ⟨ds, hds, hdir, -⟩ := (validateAbsolutePath_iff _).mp (h.canonical d hd)
  by_cases hpath : (r.nodes i).path = []
  · -- a file that is open and unlinked
    obtain ⟨rest, hrest⟩ := head_render slash ds
    simp [hpath, not_isChild_nil, immediateChildName, stripPrefix, hdir, hrest, parentPath, rfind,
      rootPath]
  obtain ⟨cs, hcs, hrender, -⟩ := (validateAbsolutePath_iff _).mp (h.canonical i ⟨hi, hpath⟩)
  simp only [hdir, hrender, immediateChildName_render hds.proper hcs.proper,
    isChild_render hds.proper hcs.proper, implies_true, true_and]
  rcases eq_nil_or_concat' cs with rfl | ⟨bs, c, rfl⟩
  · simp [parentPath, render, rootPath]
  · rw [parentPath_render hcs.proper]
    have hbs := (proper_append.mp hcs.proper).1
    constructor
    · rintro ⟨name, heq⟩
      rw [(append_inj' heq rfl).1]
    · intro heq
      exact ⟨c, by rw [render_injective hbs hds.proper (Option.some.inj heq)]⟩

theorem mem_listed {kind : NodeKind} :
    (name, kind) ∈ r.listed (r.nodes d).path r.occupiedNodes ↔ ∃ i, (r.nodes i).occupied = true ∧
      IsChild (r.nodes d).path (r.nodes i).path name ∧ (r.nodes i).kind = kind := by
  simp only [listed, occupiedNodes, mem_filterMap, mem_filter, mem_finRange,
    true_and, Option.map_eq_some_iff, Prod.mk.injEq]
  constructor
  · rintro ⟨i, hi, _, hname, rfl, hkind⟩
    exact ⟨i, hi, ((child_iff h hd hi).1 _).mp hname, hkind⟩
  · rintro ⟨i, hi, hname, hkind⟩
    exact ⟨i, hi, name, ((child_iff h hd hi).1 name).mpr hname, rfl, hkind⟩

/-- Children with the same name have the same path. -/
theorem nodup_listed : ((r.listed (r.nodes d).path r.occupiedNodes).map Prod.fst).Nodup := by
  rw [List.Nodup, pairwise_map, listed, pairwise_filterMap]
  refine ((nodup_finRange _).filter _).imp_of_mem fun {i j} hi hj hne => ?_
  simp only [occupiedNodes, mem_filter, mem_finRange, true_and] at hi hj
  simp only [Option.map_eq_some_iff]
  rintro _ ⟨name, hname, rfl⟩ _ ⟨name', hname', rfl⟩ (rfl : name = name')
  have hchild := ((child_iff h hd hi).1 name).mp hname
  have hchild' := ((child_iff h hd hj).1 name).mp hname'
  have hnamed : (r.nodes i).path ≠ [] := fun hnil => not_isChild_nil _ _ (hnil ▸ hchild)
  have hsame := hchild.path_eq hchild'
  exact hne (h.distinct i j ⟨hi, hnamed⟩ ⟨hj, hsame ▸ hnamed⟩ hsame)

theorem readdir_eq (hdir : (r.nodes d).kind = .directory) (index : ℕ) :
    r.readdir (r.nodes d).path index =
      match (r.listed (r.nodes d).path r.occupiedNodes)[index]? with
      | some (name, kind) => (dirEntry name kind).map .ok
      | none => some (.error .notFound) := by
  rw [← readdirLoop_eq _ _ 0, readdir, h.canonical d hd, Nat.zero_add]
  dsimp only
  cases hfind : r.position fun n => n.matchesPath (r.nodes d).path && n.kind == .directory with
  | none =>
    have hnone := position_none.mp hfind d
    simp [hdir, Node.matchesPath, hd.1] at hnone
  | some j =>
    have hj := position_some hfind
    simp only [Bool.and_eq_true, matchesPath_iff] at hj
    simp only [hj.1.2, occupiedNodes]

end Directory

theorem dirEntry_eq (hname : name.length ≤ maxDirName) (kind : NodeKind) :
    ∃ entry, dirEntry name kind = some entry ∧
      entry.name.slice 0 entry.nameLength = name ∧ entry.kind = kind := by
  refine ⟨⟨Buffer.zero.write 0 name, name.length, kind⟩, ?_, ?_, rfl⟩
  · simp [dirEntry, Nat.min_eq_left hname]
  · rw [Buffer.slice_write _ le_rfl (by omega), take_length]

/-- `readdir` lists the children of a directory, each under its own name and with its kind, and
a child is a node that `parent_path` sends to the directory. -/
theorem readdir_exact (h : Namespace r) {d : NodeId} (hd : (r.nodes d).Named)
    (hdir : (r.nodes d).kind = .directory) :
    let dir := (r.nodes d).path
    ∃ children : List (Str × NodeKind), (children.map Prod.fst).Nodup ∧
      (∀ name kind, (name, kind) ∈ children ↔ ∃ i, (r.nodes i).occupied = true ∧
        IsChild dir (r.nodes i).path name ∧ (r.nodes i).kind = kind) ∧
      (∀ i, (r.nodes i).occupied = true → ((∃ name, IsChild dir (r.nodes i).path name) ↔
        parentPath (r.nodes i).path = some dir)) ∧
      ∀ index, match children[index]? with
        | some (name, kind) => ∃ entry, r.readdir dir index = some (.ok entry) ∧
            entry.name.slice 0 entry.nameLength = name ∧ entry.kind = kind
        | none => r.readdir dir index = some (.error .notFound) := by
  refine ⟨r.listed (r.nodes d).path r.occupiedNodes, nodup_listed h hd, fun _ _ => mem_listed h hd,
    fun i hi => (child_iff h hd hi).2, fun index => ?_⟩
  rw [readdir_eq h hd hdir]
  cases hget : (r.listed (r.nodes d).path r.occupiedNodes)[index]? with
  | none => rfl
  | some child =>
    obtain ⟨name, kind⟩ := child
    obtain ⟨i, hi, hchild, -⟩ := (mem_listed h hd).mp (List.mem_of_getElem? hget)
    have hnamed : (r.nodes i).path ≠ [] := fun hnil => not_isChild_nil _ _ (hnil ▸ hchild)
    obtain ⟨es, hes, -, hpath⟩ := hchild
    obtain ⟨cs, hcs, hrender, -⟩ := (validateAbsolutePath_iff _).mp (h.canonical i ⟨hi, hnamed⟩)
    obtain rfl := render_injective hes hcs.proper (hpath.symm.trans hrender)
    obtain ⟨entry, hentry, hname⟩ := dirEntry_eq (hcs name (by simp)).length_le kind
    exact ⟨entry, by simp [hentry], hname⟩

/-- The root of a system that has just been started. -/
theorem readdir_exact_root :
    ∃ children : List (Str × NodeKind), ∀ index, match children[index]? with
      | some (name, kind) => ∃ entry, boot.readdir rootPath index = some (.ok entry) ∧
          entry.name.slice 0 entry.nameLength = name ∧ entry.kind = kind
      | none => boot.readdir rootPath index = some (.error .notFound) := by
  obtain ⟨children, -, -, -, hread⟩ := readdir_exact consistent_boot.namespace
    (d := ⟨0, by decide⟩) ⟨rfl, by decide⟩ rfl
  exact ⟨children, hread⟩

end WovenHat.Vfs.Registry
