import WovenHat.Model.Paging

/-! # The reference counts of shared frames

`CowTable` as a partial map from frames to counts. -/

namespace WovenHat.Paging

open Function CowEntry

namespace CowTable

variable {t t' : CowTable} {frame other : Frame} {slot : Fin maxCowFrames}

/-- The count that the table records for a frame. -/
def entry (t : CowTable) (frame : Frame) : Option ℕ :=
  (t.findSlot frame).map fun i => (t i).refcount

structure Ok (t : CowTable) : Prop where
  distinct : ∀ i j, (t i).occupied = true → (t j).occupied = true →
    (t i).frame = (t j).frame → i = j
  pos : ∀ i, (t i).occupied = true → 0 < (t i).refcount

theorem refcount_eq (t : CowTable) (frame : Frame) : t.refcount frame = (t.entry frame).getD 1 := by
  unfold refcount entry
  cases t.findSlot frame <;> rfl

theorem findSlot_some (h : t.findSlot frame = some slot) :
    (t slot).occupied = true ∧ (t slot).frame = frame := by
  have hfound := List.find?_some h
  rwa [Bool.and_eq_true, beq_iff_eq] at hfound

theorem findSlot_none (h : t.findSlot frame = none) (i : Fin maxCowFrames)
    (hi : (t i).occupied = true) : (t i).frame ≠ frame := by
  intro hframe
  have hall := List.find?_eq_none.mp h i (List.mem_finRange i)
  exact hall (by simp [hi, hframe])

theorem Ok.findSlot_eq (h : t.Ok) (hocc : (t slot).occupied = true)
    (hframe : (t slot).frame = frame) : t.findSlot frame = some slot := by
  cases hfind : t.findSlot frame with
  | none => exact absurd hframe (findSlot_none hfind slot hocc)
  | some i =>
    obtain ⟨hi, hfi⟩ := findSlot_some hfind
    rw [h.distinct i slot hi hocc (hfi.trans hframe.symm)]

theorem Ok.entry_eq_some (h : t.Ok) (slot : Fin maxCowFrames) (hocc : (t slot).occupied = true) :
    t.entry (t slot).frame = some (t slot).refcount := by
  rw [entry, h.findSlot_eq hocc rfl]
  rfl

theorem entry_eq_none (h : ∀ i, (t i).occupied = true → (t i).frame ≠ frame) :
    t.entry frame = none := by
  cases hfind : t.findSlot frame with
  | none => rw [entry, hfind, Option.map_none]
  | some i =>
    obtain ⟨hi, hframe⟩ := findSlot_some hfind
    exact absurd hframe (h i hi)

/-- The entry of a frame depends on the slots that hold it only. -/
theorem Ok.entry_congr (h' : t'.Ok) (hslots : ∀ i, (t' i).occupied = true ∧ (t' i).frame = frame ↔
      (t i).occupied = true ∧ (t i).frame = frame)
    (hcount : ∀ i, (t i).occupied = true → (t i).frame = frame →
      (t' i).refcount = (t i).refcount) : t'.entry frame = t.entry frame := by
  cases hfind : t.findSlot frame with
  | none =>
    rw [entry, entry, hfind]
    have hnone : t'.entry frame = none := entry_eq_none fun i hi hframe =>
      findSlot_none hfind i ((hslots i).mp ⟨hi, hframe⟩).1 ((hslots i).mp ⟨hi, hframe⟩).2
    rw [entry] at hnone
    rw [hnone]
    rfl
  | some i =>
    obtain ⟨hi, hframe⟩ := findSlot_some hfind
    obtain ⟨hi', hframe'⟩ := (hslots i).mpr ⟨hi, hframe⟩
    rw [entry, entry, hfind, h'.findSlot_eq hi' hframe']
    exact congrArg some (hcount i hi hframe)

/-! ## Changing one entry -/

theorem Ok.setCount (h : t.Ok) (hslot : t.findSlot frame = some slot) {n : ℕ} (hn : 0 < n) :
    Ok (update t slot { t slot with refcount := n }) ∧
      entry (update t slot { t slot with refcount := n }) frame = some n ∧
      ∀ other, other ≠ frame →
        entry (update t slot { t slot with refcount := n }) other = t.entry other := by
  obtain ⟨hocc, hframe⟩ := findSlot_some hslot
  generalize ht' : update t slot { t slot with refcount := n } = t'
  have hsame : ∀ i, (t' i).occupied = (t i).occupied ∧ (t' i).frame = (t i).frame := by
    intro i
    subst ht'
    by_cases hi : i = slot
    · subst hi
      simp
    · simp [update_of_ne hi]
  have hself : (t' slot).refcount = n := by
    subst ht'
    simp
  have hok : Ok t' := by
    refine ⟨fun i j hi hj hij => ?_, fun i hi => ?_⟩
    · rw [(hsame i).1] at hi
      rw [(hsame j).1] at hj
      rw [(hsame i).2, (hsame j).2] at hij
      exact h.distinct i j hi hj hij
    by_cases his : i = slot
    · rw [his, hself]
      exact hn
    rw [(hsame i).1] at hi
    have hrest : t' i = t i := by
      subst ht'
      exact update_of_ne his _ _
    rw [hrest]
    exact h.pos i hi
  refine ⟨hok, ?_, fun other hother => ?_⟩
  · have hentry := hok.entry_eq_some slot ((hsame slot).1.trans hocc)
    rwa [(hsame slot).2, hframe, hself] at hentry
  refine hok.entry_congr (fun i => ?_) fun i hi hfi => ?_
  · rw [(hsame i).1, (hsame i).2]
  have his : i ≠ slot := by
    rintro rfl
    exact hother (hfi.symm.trans hframe)
  subst ht'
  rw [update_of_ne his]

theorem Ok.dropEntry (h : t.Ok) (hslot : t.findSlot frame = some slot) :
    Ok (update t slot empty) ∧
      entry (update t slot empty) frame = none ∧
      ∀ other, other ≠ frame → entry (update t slot empty) other = t.entry other := by
  obtain ⟨hocc, hframe⟩ := findSlot_some hslot
  generalize ht' : update t slot empty = t'
  have hself : (t' slot).occupied = false := by
    subst ht'
    rw [update_self]
    rfl
  have hrest : ∀ i, i ≠ slot → t' i = t i := by
    intro i hi
    subst ht'
    exact update_of_ne hi _ _
  have hne : ∀ i, (t' i).occupied = true → i ≠ slot := by
    rintro i hi rfl
    rw [hself] at hi
    cases hi
  have hok : Ok t' := by
    refine ⟨fun i j hi hj hij => ?_, fun i hi => ?_⟩
    · have his := hne i hi
      have hjs := hne j hj
      rw [hrest i his] at hi hij
      rw [hrest j hjs] at hj hij
      exact h.distinct i j hi hj hij
    · have his := hne i hi
      rw [hrest i his] at hi ⊢
      exact h.pos i hi
  refine ⟨hok, entry_eq_none fun i hi hfi => ?_, fun other hother => ?_⟩
  · have his := hne i hi
    rw [hrest i his] at hi hfi
    exact his (h.distinct i slot hi hocc (hfi.trans hframe.symm))
  refine hok.entry_congr (fun i => ?_) fun i hi hfi => ?_
  · by_cases his : i = slot
    · subst his
      exact iff_of_false (fun hi => by rw [hself] at hi; cases hi.1)
        fun hi => hother (hi.2.symm.trans hframe)
    · rw [hrest i his]
  · have his : i ≠ slot := by
      rintro rfl
      exact hother (hfi.symm.trans hframe)
    rw [hrest i his]

theorem Ok.addEntry (h : t.Ok) (hframe : t.findSlot frame = none)
    (hfree : (t slot).occupied = false) {n : ℕ} (hn : 0 < n) : Ok (update t slot ⟨frame, n, true⟩) ∧
      entry (update t slot ⟨frame, n, true⟩) frame = some n ∧
      ∀ other, other ≠ frame → entry (update t slot ⟨frame, n, true⟩) other = t.entry other := by
  generalize ht' : update t slot (⟨frame, n, true⟩ : CowEntry) = t'
  have hself : t' slot = ⟨frame, n, true⟩ := by
    subst ht'
    exact update_self _ _ _
  have hrest : ∀ i, i ≠ slot → t' i = t i := by
    intro i hi
    subst ht'
    exact update_of_ne hi _ _
  have hok : Ok t' := by
    refine ⟨fun i j hi hj hij => ?_, fun i hi => ?_⟩
    · by_cases his : i = slot
      · by_cases hjs : j = slot
        · rw [his, hjs]
        rw [his, hself, hrest j hjs] at hij
        rw [hrest j hjs] at hj
        exact absurd hij.symm (findSlot_none hframe j hj)
      · rw [hrest i his] at hi hij
        by_cases hjs : j = slot
        · rw [hjs, hself] at hij
          exact absurd hij (findSlot_none hframe i hi)
        · rw [hrest j hjs] at hj hij
          exact h.distinct i j hi hj hij
    · by_cases his : i = slot
      · rw [his, hself]
        exact hn
      · rw [hrest i his] at hi ⊢
        exact h.pos i hi
  refine ⟨hok, ?_, fun other hother => ?_⟩
  · have hentry := hok.entry_eq_some slot (by rw [hself])
    rwa [hself] at hentry
  refine hok.entry_congr (fun i => ?_) fun i hi hfi => ?_
  · by_cases his : i = slot
    · subst his
      rw [hself, hfree]
      exact iff_of_false (fun hi => hother hi.2.symm) fun hi => by cases hi.1
    · rw [hrest i his]
  · have his : i ≠ slot := by
      rintro rfl
      rw [hfree] at hi
      cases hi
    rw [hrest i his]

/-! ## Operations -/

theorem ok_empty : Ok fun _ => empty where
  distinct i j hi := by cases hi
  pos i hi := by cases hi

theorem entry_empty (frame : Frame) : entry (fun _ => empty) frame = none :=
  entry_eq_none fun i hi => by cases hi

theorem refcount_of_some (h : t.findSlot frame = some slot) :
    t.refcount frame = (t slot).refcount := by
  rw [refcount_eq, entry, h]
  rfl

theorem refcount_of_none (h : t.findSlot frame = none) : t.refcount frame = 1 := by
  rw [refcount_eq, entry, h]
  rfl

theorem entry_of_none (h : t.findSlot frame = none) : t.entry frame = none := by
  simp only [entry, h, Option.map_none]

theorem refcount_pos (h : t.Ok) (frame : Frame) : 0 < t.refcount frame := by
  unfold refcount
  split
  · rename_i slot hslot
    exact h.pos slot (findSlot_some hslot).1
  · exact Nat.one_pos

theorem Ok.share (h : t.Ok) (hshare : t.share frame = some t') :
    t'.Ok ∧ t'.entry frame = some (t.refcount frame + 1) ∧
      ∀ other, other ≠ frame → t'.entry other = t.entry other := by
  unfold CowTable.share at hshare
  cases hslot : t.findSlot frame with
  | some slot =>
    rw [hslot] at hshare
    dsimp only at hshare
    split at hshare
    · cases hshare
      rw [refcount_of_some hslot]
      exact h.setCount hslot (Nat.succ_pos _)
    · cases hshare
  | none =>
    rw [hslot] at hshare
    dsimp only at hshare
    split at hshare
    · cases hshare
    rename_i slot hfree
    cases hshare
    have hfree' : (t slot).occupied = false := by
      have hfound := List.find?_some hfree
      simpa using hfound
    rw [refcount_of_none hslot]
    exact h.addEntry hslot hfree' (by omega)

theorem Ok.release_last (h : t.Ok) (frame : Frame) (hone : t.refcount frame = 1) :
    (t.release frame).1 = true ∧ (t.release frame).2.Ok ∧ (t.release frame).2.entry frame = none ∧
      ∀ other, other ≠ frame → (t.release frame).2.entry other = t.entry other := by
  unfold release
  cases hslot : t.findSlot frame with
  | none => exact ⟨rfl, h, entry_of_none hslot, fun _ _ => rfl⟩
  | some slot =>
    rw [refcount_of_some hslot] at hone
    dsimp only
    rw [hone]
    exact ⟨rfl, h.dropEntry hslot⟩

theorem Ok.release_shared (h : t.Ok) (frame : Frame) (hshared : 2 ≤ t.refcount frame) :
    (t.release frame).1 = false ∧ (t.release frame).2.Ok ∧
      (t.release frame).2.entry frame = some (t.refcount frame - 1) ∧
      ∀ other, other ≠ frame → (t.release frame).2.entry other = t.entry other := by
  unfold release
  cases hslot : t.findSlot frame with
  | none =>
    rw [refcount_of_none hslot] at hshared
    omega
  | some slot =>
    rw [refcount_of_some hslot] at hshared ⊢
    dsimp only
    rw [if_neg (by omega)]
    exact ⟨rfl, h.setCount hslot (by omega)⟩

theorem Ok.clear (h : t.Ok) (frame : Frame) :
    (t.clear frame).Ok ∧ (t.clear frame).entry frame = none ∧
      ∀ other, other ≠ frame → (t.clear frame).entry other = t.entry other := by
  unfold CowTable.clear
  cases hslot : t.findSlot frame with
  | none => exact ⟨h, entry_of_none hslot, fun _ _ => rfl⟩
  | some slot => exact h.dropEntry hslot

end CowTable

end WovenHat.Paging
