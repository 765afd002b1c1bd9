import WovenHat.Verification.Vfs.Calls
import WovenHat.Verification.Vfs.Rename

/-! # The namespace over whole runs

Every VFS call, successful or not and whatever the disk answers, keeps the registry
consistent, so every run from boot does. -/

namespace WovenHat.Vfs

open Library SeparatedPath Registry

namespace State

variable {v v' : State} {n : NodeId}

/-- An open file loses its name only; a file has no children, so nothing is orphaned. -/
theorem unnamed_consistent (h : Consistent v.registry) {path : Str} {node : Node}
    (hvalid : validateAbsolutePath path = .ok ())
    (hmatch : (v.registry.nodes n).matchesPath path = true)
    (hfile : (v.registry.nodes n).kind = .file) (hpath : node.path = [])
    (hback : node.backing = none) : Consistent (v.registry.setNode n node) := by
  obtain ⟨cs, hcs, rfl, -⟩ := (validateAbsolutePath_iff path).mp hvalid
  obtain ⟨hocc, htext⟩ := matchesPath_iff.mp hmatch
  have hname := Node.name_render hocc htext hcs.proper
  have hne : cs ≠ [] := by
    rintro rfl
    obtain ⟨j, hj, hbranch⟩ := h.tree.root
    obtain rfl := h.tree.unique j n [] hj hname
    rw [Registry.Branch, hfile] at hbranch
    simp at hbranch
  exact h.setNode_unnamed hname hne (fun i c => h.file_leaf hname hfile (by simp))
    (by simp [Node.Named, hpath]) hback

theorem freed_consistent (h : Consistent v.registry) {node : Node} (hpath : (v.registry.nodes n).path = [])
    (hfree : node.occupied = false) (hback : node.backing = none) :
    Consistent (v.registry.setNode n node) := by
  have hold : (v.registry.nodes n).name = none := Node.name_eq_none (by simp [Node.Named, hpath])
  have hnamed : ¬node.Named := by simp [Node.Named, hfree]
  refine h.setNode n node ?_ (fun hn => (hnamed hn).elim) fun p hp => by simp [hback] at hp
  rw [Node.name_eq_none hnamed, ← hold,
    Function.update_eq_self n (fun i => (v.registry.nodes i).name)]
  apply h.tree.congr (fun _ => rfl)
  intro i p hi hb
  apply Consistent.branch_of_ne i _ hb
  rintro rfl
  simp [hold] at hi

theorem Effect.consistent {op : Op} (h : Effect v op v') (hv : Consistent v.registry) :
    Consistent v'.registry := by
  cases h with
  | touched ht => exact hv.congr ht.node
  | placed hfree hvalid hfresh hparent hocc hpath hback =>
    exact hv.placed hfree hvalid hfresh hparent hocc hpath hback
  | renamed hok => exact hv.rename hok
  | unnamed hvalid hmatch hfile _ _ _ hpath hback =>
    exact unnamed_consistent hv hvalid hmatch hfile hpath hback
  | removed _ _ hok => exact hv.remove hok
  | opened => exact hv
  | cloned => exact hv
  | closed => exact hv
  | freed _ hpath _ _ hfree hback =>
    exact (freed_consistent hv hpath hfree hback).congr fun _ => ⟨rfl, rfl, rfl, .inr rfl⟩

theorem performAll_consistent (h : Consistent v.registry) (calls : List (DiskReader × Op)) :
    Consistent (v.performAll calls).registry := by
  induction calls generalizing v with
  | nil => exact h
  | cons call rest ih => exact ih ((Effect.perform call.1 call.2).consistent h)

end State

/-! ## The boot registry -/

/-- The names of the boot nodes, checked slot by slot. -/
theorem boot_names : (∀ i j : NodeId, (boot.nodes i).name = (boot.nodes j).name →
      (boot.nodes i).name = none ∨ i = j) ∧ ∀ i : NodeId, ∀ cs ∈ (boot.nodes i).name, cs = [] ∨
      ∃ j : NodeId, (boot.nodes j).name = some cs.dropLast ∧ (boot.nodes j).kind = .directory := by
  decide +kernel

theorem consistent_boot : Consistent boot := by
  obtain ⟨hunique, hparent⟩ := boot_names
  refine ⟨⟨?_, ?_, ?_⟩, ?_, ?_⟩
  · intro i j p hi hj
    rcases hunique i j (hi.trans hj.symm) with hnone | hij
    · simp [hnone] at hi
    · exact hij
  · exact ⟨⟨0, by decide⟩, rfl, rfl⟩
  · intro i p a hi
    rcases hparent i (p ++ [a]) hi with hnil | ⟨j, hj, hdir⟩
    · simp at hnil
    · exact ⟨j, by simpa using hj, hdir⟩
  · decide +kernel
  · have hnone : ∀ i : NodeId, (boot.nodes i).backing = none := by decide +kernel
    intro i p hp
    simp [hnone i] at hp

/-- A file that is there at boot. -/
def motd : Str :=
  ascii ['/', 'e', 't', 'c', '/', 'm', 'o', 't', 'd']

/-- An empty file that is there at boot. -/
def sparePath : Str :=
  ascii ['/', 't', 'm', 'p', '/', 'v', 'f', 's', '-', 's', 'e', 'l', 'f', '-', 't', 'e', 's', 't']

/-! ## The namespace -/

/-- What a client of the registry relies on. -/
structure Namespace (r : Registry) : Prop where
  distinct : ∀ i j, (r.nodes i).Named → (r.nodes j).Named →
    (r.nodes i).path = (r.nodes j).path → i = j
  canonical : ∀ i, (r.nodes i).Named → validateAbsolutePath (r.nodes i).path = .ok ()
  root : ∃ i, (r.nodes i).matchesPath rootPath = true ∧ (r.nodes i).kind = .directory
  parent : ∀ i, (r.nodes i).Named → (r.nodes i).path ≠ rootPath →
    ∃ above j, parentPath (r.nodes i).path = some above ∧
      (r.nodes j).matchesPath above = true ∧ (r.nodes j).kind = .directory
  backing : ∀ i p, (r.nodes i).Named → (r.nodes i).backing = some p → p = (r.nodes i).path

theorem Consistent.namespace {r : Registry} (h : Consistent r) : Namespace r := by
  refine ⟨fun i j => h.path_inj, h.canonical, ?_, ?_, fun i p _ hp => (h.backing i p hp).2⟩
  · obtain ⟨i, hi, hdir⟩ := h.tree.root
    obtain ⟨hnamed, -, hpath⟩ := h.of_name hi
    exact ⟨i, matchesPath_iff.mpr ⟨hnamed.1, hpath⟩, hdir⟩
  intro i hi hroot
  obtain ⟨cs, hcs, hpath, hname, -⟩ := h.named hi
  rcases List.eq_nil_or_concat cs with rfl | ⟨cs, c, rfl⟩
  · exact (hroot hpath).elim
  rw [List.concat_eq_append] at hcs hpath hname
  obtain ⟨j, hj, hdir⟩ := h.tree.parent i cs c hname
  obtain ⟨hnamed, -, habove⟩ := h.of_name hj
  refine ⟨render slash cs, j, ?_, matchesPath_iff.mpr ⟨hnamed.1, habove⟩, hdir⟩
  rw [hpath, parentPath_render hcs.proper]

/-- After every sequence of VFS calls from boot, whether they succeed or fail and
whatever the disk answers, the registry is a namespace. -/
theorem namespace_performAll (page : ℕ → Buffer 4096) (calls : List (DiskReader × State.Op)) :
    Namespace ((State.boot page).performAll calls).registry := by
  have hboot : Consistent (State.boot page).registry := consistent_boot
  exact (State.performAll_consistent hboot calls).namespace

end WovenHat.Vfs
