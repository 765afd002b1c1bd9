import WovenHat.Library.Result
import WovenHat.Model.Vfs.Registry

/-! # What a successful registry call has done

One inversion lemma for each registry method: the checks that passed and the table
that results. -/

namespace WovenHat.Vfs.Registry

open Library Result

variable {r : Registry} {test : Node → Bool} {path : Str} {r' : Registry} {index : NodeId}

theorem position_some {i : NodeId} (h : r.position test = some i) : test (r.nodes i) = true := by
  simpa using List.find?_some h

theorem position_none : r.position test = none ↔ ∀ i, test (r.nodes i) = false := by
  simp [position]

theorem any_iff : r.any test = true ↔ ∃ i, test (r.nodes i) = true := by
  simp [any]

theorem any_eq_false : r.any test = false ↔ ∀ i, test (r.nodes i) = false := by
  simp [any]

theorem matchesPath_iff {n : Node} :
    n.matchesPath path = true ↔ n.occupied = true ∧ n.path = path := by
  simp [Node.matchesPath]

@[simp] theorem setNode_self (r : Registry) (i : NodeId) (n : Node) :
    (r.setNode i n).nodes i = n := by
  simp [setNode]

theorem setNode_of_ne (r : Registry) {i j : NodeId} (n : Node) (h : j ≠ i) :
    (r.setNode i n).nodes j = r.nodes j := by
  simp [setNode, Function.update_of_ne h]

theorem checkedIncrement_some {m n : ℕ} (h : checkedIncrement m = some n) : n = m + 1 := by
  unfold checkedIncrement at h
  split at h
  · exact (Option.some.inj h).symm
  · cases h

theorem checkParent_ok (h : r.checkParent path = .ok ()) :
    ∃ parent k, parentPath path = some parent ∧ (r.nodes k).occupied = true ∧
      (r.nodes k).path = parent ∧ (r.nodes k).kind = .directory := by
  unfold checkParent at h
  cases hparent : parentPath path with
  | none => simp [hparent] at h
  | some parent =>
    simp only [hparent] at h
    split at h
    · rename_i hany
      obtain ⟨k, hk⟩ := any_iff.mp hany
      simp only [Bool.and_eq_true, matchesPath_iff, beq_iff_eq] at hk
      exact ⟨parent, k, rfl, hk.1.1, hk.1.2, hk.2⟩
    · simp at h

theorem insert_ok {data : List UInt8} {writable : Bool}
    (h : r.insert path data writable = .ok (index, r')) :
    validateAbsolutePath path = .ok () ∧ data.length ≤ nodeCapacity ∧
      (∀ i, (r.nodes i).matchesPath path = false) ∧
      (path ≠ rootPath → r.checkParent path = .ok ()) ∧
      (r.nodes index).occupied = false ∧
      r' = r.setNode index (insertedNode (r.nodes index) path data writable) := by
  simp only [insert, throw_bind, bind_eq_ok, check_eq_ok, not_lt, gt_iff_lt, Bool.not_eq_true] at h
  obtain ⟨⟨⟩, hvalid, hlen, hfresh, h⟩ := h
  have hparent : path ≠ rootPath → r.checkParent path = .ok () := by
    intro hroot
    rw [if_pos hroot] at h
    obtain ⟨⟨⟩, hparent, -⟩ := bind_eq_ok.mp h
    exact hparent
  refine ⟨hvalid, hlen, any_eq_false.mp hfresh, hparent, ?_⟩
  cases hfree : r.position (!·.occupied) with
  | none =>
    simp only [hfree] at h
    split at h
    · simp [bind_eq_ok, throw_eq_ok] at h
    · simp [throw_eq_ok] at h
  | some i =>
    have hplace : (index, r') = (i, r.setNode i (insertedNode (r.nodes i) path data writable)) := by
      simp only [hfree] at h
      split at h
      · obtain ⟨_, -, h⟩ := bind_eq_ok.mp h
        exact (pure_eq_ok.mp h).symm
      · exact (pure_eq_ok.mp h).symm
    obtain ⟨rfl, rfl⟩ := Prod.mk.inj hplace
    exact ⟨by simpa using position_some hfree, rfl⟩

theorem mkdir_ok (h : r.mkdir path = .ok (index, r')) :
    validateAbsolutePath path = .ok () ∧ path ≠ rootPath ∧
      (∀ i, (r.nodes i).matchesPath path = false) ∧ r.checkParent path = .ok () ∧
      (r.nodes index).occupied = false ∧ r' = r.setNode index (Node.directory path) := by
  simp only [mkdir, throw_bind, bind_eq_ok, check_eq_ok, Bool.not_eq_true] at h
  obtain ⟨⟨⟩, hvalid, hroot, hfresh, ⟨⟩, hparent, h⟩ := h
  refine ⟨hvalid, hroot, any_eq_false.mp hfresh, hparent, ?_⟩
  cases hfree : r.position (!·.occupied) with
  | none => simp [hfree, throw_eq_ok] at h
  | some i =>
    simp only [hfree, pure_eq_ok, Prod.mk.injEq] at h
    obtain ⟨rfl, rfl⟩ := h
    exact ⟨by simpa using position_some hfree, rfl⟩

theorem removableIndex_ok (h : r.removableIndex path = .ok index) :
    validateAbsolutePath path = .ok () ∧ path ≠ rootPath ∧
      (r.nodes index).matchesPath path = true ∧
      ((r.nodes index).kind = .directory → ∀ i, (r.nodes i).occupied = true →
        immediateChildName path (r.nodes i).path = none) := by
  simp only [removableIndex, throw_bind, bind_eq_ok, check_eq_ok] at h
  obtain ⟨⟨⟩, hvalid, hroot, h⟩ := h
  cases hfind : r.position (·.matchesPath path) with
  | none => simp [hfind, throw_eq_ok] at h
  | some i =>
    have hmatch := position_some hfind
    simp only [hfind, check_eq_ok, pure_eq_ok] at h
    obtain ⟨hempty, rfl⟩ := h
    refine ⟨hvalid, hroot, hmatch, ?_⟩
    intro hdir j hocc
    simp only [hdir, true_and, any_iff, not_exists, Bool.and_eq_true, not_and,
      (matchesPath_iff.mp hmatch).2, Option.not_isSome_iff_eq_none] at hempty
    exact hempty j hocc

theorem remove_ok (h : r.remove path = .ok r') :
    ∃ index generation, r.removableIndex path = .ok index ∧
      checkedIncrement (r.generations index) = some generation ∧
      r' = { r.setNode index
          { r.nodes index with
            occupied := false, path := [], length := 0, backing := none, writable := false,
            data := Buffer.zero } with
        generations := Function.update r.generations index generation } := by
  simp only [remove, bind_eq_ok] at h
  obtain ⟨index, hindex, h⟩ := h
  cases hgen : checkedIncrement (r.generations index) with
  | none => simp [hgen, throw_eq_ok] at h
  | some generation =>
    simp only [hgen, pure_eq_ok] at h
    exact ⟨index, generation, hindex, hgen, h.symm⟩

theorem validateRename_ok {old new : Str} (h : r.validateRename old new = .ok ()) (hne : old ≠ new)
    : validateAbsolutePath old = .ok () ∧ validateAbsolutePath new = .ok () ∧
      old ≠ rootPath ∧ new ≠ rootPath ∧ (∀ i, (r.nodes i).matchesPath new = false) ∧
      descendantSuffix old new = none ∧ r.checkParent new = .ok () ∧
      ∃ index, r.position (·.matchesPath old) = some index ∧
        ∀ i, renamePreflight old new ((r.nodes index).kind == .directory) (r.nodes i) = false := by
  simp only [validateRename, throw_bind, bind_eq_ok, check_eq_ok, not_or] at h
  obtain ⟨⟨⟩, hold, ⟨⟩, hnew, ⟨hroot, hroot'⟩, h⟩ := h
  cases hfind : r.position (·.matchesPath old) with
  | none => simp [hfind, throw_eq_ok] at h
  | some index =>
    simp only [hfind, hne, if_false, check_eq_ok, Bool.not_eq_true, bind_eq_ok,
      Option.isSome_eq_false_iff, Option.isNone_iff_eq_none] at h
    obtain ⟨hfresh, hout, ⟨⟩, hparent, hfit, -⟩ := h
    exact ⟨hold, hnew, hroot, hroot', any_eq_false.mp hfresh, hout, hparent, index, rfl,
      any_eq_false.mp hfit⟩

theorem rename_ok {old new : Str} (h : r.rename old new = .ok r') :
    r.validateRename old new = .ok () ∧
      (old = new ∧ r' = r ∨ old ≠ new ∧ ∃ index, r.position (·.matchesPath old) = some index ∧
        r' = r.renameNodes old new ((r.nodes index).kind == .directory)) := by
  simp only [rename, bind_eq_ok] at h
  obtain ⟨⟨⟩, hvalid, h⟩ := h
  refine ⟨hvalid, ?_⟩
  by_cases heq : old = new
  · simp only [heq, if_true, pure_eq_ok] at h
    exact .inl ⟨heq, h.symm⟩
  cases hfind : r.position (·.matchesPath old) with
  | none => simp [heq, hfind, throw_eq_ok] at h
  | some index =>
    simp only [heq, if_false, hfind, pure_eq_ok] at h
    exact .inr ⟨heq, index, rfl, h.symm⟩

end WovenHat.Vfs.Registry
