import WovenHat.Verification.Vfs.OpenFiles

/-! # Reading and writing through an open description

Which errors a description that is open can meet, and what a write that fails has done. -/

namespace WovenHat.Vfs.State

open Library Buffer OpenFileTable Registry

variable {v v' : State} {slot : Fin maxOpenFiles} {op : Op} {id : OpenFileId}

/-! ## References -/

/-- The references to a description that are held after a call: each open or clone that returns
it adds one, each close drops one. -/
def referencesAfter (v : State) (slot : Fin maxOpenFiles) (count : ℕ) : Op → ℕ
  | .openPath path =>
    match (v.openPath path).1 with
    | .ok id => if id = slot then count + 1 else count
    | .error _ => count
  | .cloneOpenFile id =>
    match (v.cloneOpenFile id).1 with
    | .ok id => if id = slot then count + 1 else count
    | .error _ => count
  | .closeOpenFile id => if id = slot then count - 1 else count
  | _ => count

/-- The references to a description after a sequence of calls. -/
def references (slot : Fin maxOpenFiles) : State → ℕ → List (DiskReader × Op) → ℕ
  | _, count, [] => count
  | v, count, call :: rest =>
    references slot (v.perform call.1 call.2) (v.referencesAfter slot count call.2) rest

theorem Live.getMut (h : v.Live) (hslot : 0 < (v.openFiles slot).refcount) :
    v.openFiles.getMut slot = .ok slot := by
  rw [OpenFileTable.getMut, dif_pos slot.isLt, if_pos ⟨(h.count slot).mpr hslot, hslot⟩]

theorem refcount_set (t : OpenFileTable) (i : Fin maxOpenFiles) (file : OpenFileDescription) :
    (Function.update t i file slot).refcount =
      if (i : ℕ) = slot then file.refcount else (t slot).refcount := by
  by_cases hi : i = slot
  · subst hi
    simp
  · rw [Function.update_of_ne (Ne.symm hi), if_neg fun heq => hi (Fin.ext heq)]

theorem Live.refcount_openPath (h : v.Live) (path : Str) :
    ((v.openPath path).2.openFiles slot).refcount =
      v.referencesAfter slot (v.openFiles slot).refcount (.openPath path) := by
  obtain ⟨e, hopen⟩ | ⟨i, n, -, -, hfree, hopen⟩ := v.openPath_cases path
  · simp only [referencesAfter, hopen]
  have hcount := h.count i
  simp only [referencesAfter, hopen, refcount_set]
  split
  · rename_i heq
    obtain rfl := Fin.ext heq
    simpa [hfree] using hcount
  · rfl

theorem refcount_cloneOpenFile (id : OpenFileId) :
    ((v.cloneOpenFile id).2.openFiles slot).refcount =
      v.referencesAfter slot (v.openFiles slot).refcount (.cloneOpenFile id) := by
  simp only [referencesAfter, cloneOpenFile_eq, withOpenFile]
  split
  · rfl
  rename_i i hget
  obtain ⟨rfl, -⟩ := getMut_ok hget
  split
  · simp only [refcount_set]
    split
    · rename_i heq
      obtain rfl := Fin.ext heq
      rfl
    · rfl
  · rfl

theorem refcount_dropId (t : OpenFileTable) (i : Fin maxOpenFiles) : (t.dropId i slot).refcount =
      if (i : ℕ) = slot then (t slot).refcount - 1 else (t slot).refcount := by
  rw [dropId, refcount_set]
  split
  · rename_i heq
    obtain rfl := Fin.ext heq
    split
    · rename_i hzero
      exact hzero.symm
    · rfl
  · rfl

theorem Live.refcount_closeOpenFile (h : v.Live) (id : OpenFileId) :
    ((v.closeOpenFile id).2.openFiles slot).refcount =
      v.referencesAfter slot (v.openFiles slot).refcount (.closeOpenFile id) := by
  simp only [referencesAfter, closeOpenFile, withOpenFile]
  split
  · rename_i hget
    split
    · rename_i hid
      subst hid
      by_cases hslot : 0 < (v.openFiles slot).refcount
      · rw [h.getMut hslot] at hget
        cases hget
      · simp only
        omega
    · rfl
  · rename_i i hget
    obtain ⟨rfl, -⟩ := getMut_ok hget
    split
    · split <;> exact refcount_dropId ..
    · exact refcount_dropId ..

theorem Live.refcount_perform (h : v.Live) (disk : DiskReader) (op : Op) :
    ((v.perform disk op).openFiles slot).refcount =
      v.referencesAfter slot (v.openFiles slot).refcount op := by
  have heffect := Effect.perform (v := v) disk op
  cases op with
  | openPath path => exact h.refcount_openPath path
  | cloneOpenFile id => exact refcount_cloneOpenFile id
  | closeOpenFile id => exact h.refcount_closeOpenFile id
  | _ => exact (heffect.references nofun nofun nofun slot).2

/-- The reference count of a description is the number of references that are held. -/
theorem Live.refcount_performAll (h : v.Live) (calls : List (DiskReader × Op)) :
    ((v.performAll calls).openFiles slot).refcount =
      references slot v (v.openFiles slot).refcount calls := by
  induction calls generalizing v with
  | nil => rfl
  | cons call rest ih =>
    rw [references, ← h.refcount_perform call.1 call.2]
    exact ih ((Effect.perform call.1 call.2).live h)

/-! ## A write that fails -/

/-- No file has changed for its readers. A file that is still on disk has its bytes there. -/
structure Unwritten (v v' : State) : Prop where
  bytes : ∀ n, (v'.registry.nodes n).length = (v.registry.nodes n).length ∧
    (v'.registry.nodes n).backing = (v.registry.nodes n).backing ∧
    ((v.registry.nodes n).backing = none → (v'.registry.nodes n).data = (v.registry.nodes n).data)
  version : v'.registry.versions = v.registry.versions
  pages : v'.frames = v.frames
  offset : ∀ i, (v'.openFiles i).offset = (v.openFiles i).offset

theorem Unwritten.refl (v : State) : Unwritten v v :=
  ⟨fun _ => ⟨rfl, rfl, fun _ => rfl⟩, rfl, rfl, fun _ => rfl⟩

theorem Unwritten.setNode {n : NodeId} {node : Node}
    (hback : node.backing = (v.registry.nodes n).backing)
    (hdata : (v.registry.nodes n).backing = none → node.data = (v.registry.nodes n).data)
    (hlen : node.length = (v.registry.nodes n).length) : Unwritten v (v.setNode n node) where
  bytes m := by
    by_cases hm : m = n
    · subst hm
      rw [State.setNode, setNode_self]
      exact ⟨hlen, hback, hdata⟩
    · rw [State.setNode, setNode_of_ne _ _ hm]
      exact ⟨rfl, rfl, fun _ => rfl⟩
  version := rfl
  pages := rfl
  offset _ := rfl

theorem getMut_error {t : OpenFileTable} {e : Error} (h : t.getMut id = .error e) :
    e = .invalidDescriptor := by
  unfold getMut at h
  split at h
  · split at h <;> cases h
    rfl
  · cases h
    rfl

theorem Live.write_error (h : v.Live) {disk : DiskReader} {buffer : List UInt8} {e : Error}
    (herror : (v.write disk id buffer).1 = .error e) :
    (Unwritten v (v.write disk id buffer).2 ↔ e ≠ .full) ∧
      (e = .invalidDescriptor → ∀ slot, v.openFiles.getMut id = .ok slot →
        (v.registry.nodes (v.openFiles slot).node).length < (v.openFiles slot).offset) := by
  unfold write withOpenFile at herror ⊢
  cases hget : v.openFiles.getMut id with
  | error e' =>
    simp only [hget] at herror ⊢
    cases herror
    exact ⟨iff_of_true (.refl v) (by rw [getMut_error hget]; simp), by rw [getMut_error hget]; simp⟩
  | ok slot =>
    simp only [hget] at herror ⊢
    have hocc := (h.live slot (getMut_ok hget).2.1).1
    simp only [hocc, Bool.not_true, Bool.false_eq_true, if_false] at herror ⊢
    split at herror
    · rename_i hwritable
      cases herror
      rw [if_pos hwritable]
      exact ⟨iff_of_true (.refl v) (by simp), by simp⟩
    rename_i hwritable
    rw [if_neg hwritable]
    obtain ⟨node, _, hspec, ⟨-, hm, hmemory⟩ | ⟨hm, hback, hdisk⟩⟩ :=
      withMaterialized_cases v disk (v.openFiles slot).node _
    · have hlen := hspec.length
      rw [hm] at herror ⊢
      simp only [setNode, setNode_self] at herror ⊢
      split at herror
      · -- only a file in memory can have become shorter than the offset
        rename_i hbehind
        cases herror
        rw [if_pos hbehind]
        rcases h.inside slot (getMut_ok hget).2.1 with hnone | hinside
        · rw [hmemory hnone] at hbehind ⊢
          refine ⟨iff_of_true (.setNode rfl (fun _ => rfl) rfl) (by simp), ?_⟩
          rintro - _ ⟨⟩
          exact hbehind
        · omega
      · rename_i hinside
        rw [if_neg hinside]
        split at herror
        · cases herror
          refine ⟨iff_of_false (fun hsame => ?_) (by simp), by simp⟩
          have hversion := congrFun hsame.version (v.openFiles slot).node
          simp only [setOffset, bumpVersion, Registry.setNode, Function.update_self] at hversion
          omega
        · cases herror
    · rw [hm] at herror ⊢
      cases herror
      rw [hback] at hdisk
      exact ⟨iff_of_true (.setNode hback (fun hnone => (hdisk hnone).elim) hspec.length) (by simp),
        by simp⟩

/-! ## An open description -/

theorem readFrom_valid (h : v.Live) (hslot : 0 < (v.openFiles slot).refcount) (disk : DiskReader)
    (buffer : List UInt8) : (v.readFrom disk slot none buffer none).1 = .error .invalidDescriptor ↔
      (v.registry.nodes (v.openFiles slot).node).length < (v.openFiles slot).offset := by
  have hocc := (h.live slot ((h.count slot).mpr hslot)).1
  simp only [readFrom, withOpenFile, h.getMut hslot, Option.any_none, Option.getD_none, hocc,
    Bool.not_true, Bool.false_eq_true, if_false, gt_iff_lt]
  by_cases hbehind : (v.registry.nodes (v.openFiles slot).node).length < (v.openFiles slot).offset
  · simp [hbehind]
  rw [if_neg hbehind]
  simp only [hbehind, iff_false]
  intro herror
  split at herror
  · rename_i hread
    cases herror
    split at hread
    · split at hread
      · cases hread
      · split at hread <;> cases hread
    · cases hread
  · cases herror

/-- The calls through a description that has been opened and not closed report it as invalid
exactly if its offset lies behind the end of the file. -/
theorem open_descriptor_valid_iff (page : ℕ → Buffer 4096) (calls : List (DiskReader × Op))
    (slot : Fin maxOpenFiles) (hopen : 0 < references slot (boot page) 0 calls) :
    let v := (boot page).performAll calls
    (∀ disk buffer offset,
      (v.readFrom disk slot none buffer none).1 ≠ .error .invalidDescriptor ∧
      (v.write disk slot buffer).1 ≠ .error .invalidDescriptor ∧
      (v.seek slot offset).1 ≠ .error .invalidDescriptor) ↔
    (v.openFiles slot).offset ≤ (v.registry.nodes (v.openFiles slot).node).length := by
  intro v
  have hlive : v.Live := (live_boot page).performAll calls
  have hslot : 0 < (v.openFiles slot).refcount := by
    rw [(live_boot page).refcount_performAll calls]
    exact hopen
  constructor
  · intro hvalid
    by_contra hbehind
    exact (hvalid (fun _ _ bytes => (.error (), bytes)) [] 0).1
      ((readFrom_valid hlive hslot _ _).mpr (not_le.mp hbehind))
  intro hinside disk buffer offset
  refine ⟨fun herror => ?_, fun herror => ?_, ?_⟩
  · exact absurd ((readFrom_valid hlive hslot disk buffer).mp herror) (not_lt.mpr hinside)
  · exact absurd ((hlive.write_error herror).2 rfl slot (hlive.getMut hslot)) (not_lt.mpr hinside)
  · have hocc := (hlive.live slot ((hlive.count slot).mpr hslot)).1
    simp [seek, withOpenFile, hlive.getMut hslot, hocc]

/-- A file is opened and read to its end, and then replaced by an empty one. -/
def replacedCalls : List (DiskReader × Op) :=
  [(noDisk, .writeFile sparePath [1]), (noDisk, .openPath sparePath),
    (noDisk, .readFrom 0 none [0] none), (noDisk, .writeFile sparePath [])]

theorem replaced_file_invalidates_descriptor :
    let v := (boot fun _ => zero).performAll replacedCalls
    0 < references ⟨0, by decide⟩ (boot fun _ => zero) 0 replacedCalls ∧
      (v.readFrom noDisk 0 none [0] none).1 = .error .invalidDescriptor ∧
      (v.write noDisk 0 [0]).1 = .error .invalidDescriptor := by
  decide +kernel

theorem open_descriptor_valid_iff_opened :
    let v := (boot fun _ => zero).performAll [(noDisk, .openPath sparePath)]
    (∀ disk buffer offset,
      (v.readFrom disk 0 none buffer none).1 ≠ .error .invalidDescriptor ∧
      (v.write disk 0 buffer).1 ≠ .error .invalidDescriptor ∧
      (v.seek 0 offset).1 ≠ .error .invalidDescriptor) :=
  (open_descriptor_valid_iff _ [(noDisk, .openPath sparePath)] ⟨0, by decide⟩
    (by decide +kernel)).mpr (by decide +kernel)

/-- The call comes as far as copying, and the buffer does not fit between the offset and the
capacity of the file. -/
def Overflows (v : State) (disk : DiskReader) (id : OpenFileId) (buffer : List UInt8) : Prop :=
  ∃ slot, v.openFiles.getMut id = .ok slot ∧
    (v.registry.nodes (v.openFiles slot).node).writable = true ∧
    (materializeDiskNode disk (v.registry.nodes (v.openFiles slot).node)).1 = .ok () ∧
    (v.openFiles slot).offset ≤ (v.registry.nodes (v.openFiles slot).node).length ∧
    nodeCapacity - (v.openFiles slot).offset < buffer.length

theorem Live.write_full_iff (h : v.Live) (disk : DiskReader) (buffer : List UInt8) :
    (v.write disk id buffer).1 = .error .full ↔ v.Overflows disk id buffer := by
  unfold write withOpenFile Overflows
  cases hget : v.openFiles.getMut id with
  | error e => simp [getMut_error hget]
  | ok slot =>
    have hocc := (h.live slot (getMut_ok hget).2.1).1
    simp only [hocc, Bool.not_true, Bool.false_eq_true, if_false, Except.ok.injEq,
      exists_eq_left']
    cases hwritable : (v.registry.nodes (v.openFiles slot).node).writable with
    | false => simp
    | true =>
      have hspec := materializeDiskNode_spec disk (v.registry.nodes (v.openFiles slot).node)
      unfold withMaterialized
      rcases hm : materializeDiskNode disk (v.registry.nodes (v.openFiles slot).node) with
        ⟨result, node⟩
      rw [hm] at hspec
      have hlen := hspec.length
      cases result with
      | error e => simp [(materializeDiskNode_error hm).1]
      | ok done =>
        simp only [Bool.not_true, Bool.false_eq_true, if_false, setNode, setNode_self, true_and]
        rw [hlen]
        split
        · simp
          omega
        · simp
          omega

/-- A write that fails has changed nothing, if and only if it does not fail for a buffer that
is too long for the rest of the file. -/
theorem failed_write_unwritten_iff (page : ℕ → Buffer 4096) (calls : List (DiskReader × Op))
    (disk : DiskReader) (id : OpenFileId) (buffer : List UInt8) :
    let v := (boot page).performAll calls
    ((∃ e, (v.write disk id buffer).1 = .error e) → Unwritten v (v.write disk id buffer).2) ↔
      ¬v.Overflows disk id buffer := by
  intro v
  have hlive : v.Live := (live_boot page).performAll calls
  rw [← hlive.write_full_iff]
  constructor
  · intro hsame hfull
    exact (hlive.write_error hfull).1.mp (hsame ⟨_, hfull⟩) rfl
  · rintro hfits ⟨e, herror⟩
    refine (hlive.write_error herror).1.mpr ?_
    rintro rfl
    exact hfits herror

/-- A buffer that does not fit is written up to the capacity of the file before the call fails. -/
theorem full_write_changes_file :
    let v := (boot fun _ => zero).performAll [(noDisk, .openPath sparePath)]
    let buffer := List.replicate (nodeCapacity + 1) (1 : UInt8)
    (v.write noDisk 0 buffer).1 = .error .full ∧ ¬Unwritten v (v.write noDisk 0 buffer).2 := by
  have hopened : (boot fun _ => zero).performAll [(noDisk, .openPath sparePath)] =
      reopened 0 := by
    rw [performAll, List.foldl_cons, List.foldl_nil, boot_eq_reused, openPath_reused]
  have hresult : ∀ buffer, ((reopened 0).write noDisk 0 buffer).1 =
      if min buffer.length nodeCapacity < buffer.length then .error .full
      else .ok (min buffer.length nodeCapacity) := fun _ => rfl
  have hlive := (live_boot fun _ => zero).performAll [(noDisk, .openPath sparePath)]
  intro v buffer
  have hfull : (v.write noDisk 0 buffer).1 = .error .full := by
    simp only [v, hopened, hresult]
    rw [if_pos (by simp [buffer])]
  exact ⟨hfull, fun hsame => (hlive.write_error hfull).1.mp hsame rfl⟩

end WovenHat.Vfs.State
