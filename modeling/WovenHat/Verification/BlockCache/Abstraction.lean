import WovenHat.Model.BlockCache

/-! # The sectors a cache stores

The abstraction relation ties a cache state to the sectors its client has stored.
Replacing an entry, writing one back and flushing keep it, also when a write-back
fails half way through a flush. -/

namespace WovenHat.BlockCache

open Library Block Function LawfulBlockDevice Buffer CachedDevice

variable {D : Type} {N : ℕ} [BlockDevice D] [LawfulBlockDevice D]

open LawfulBlockDevice (contents)

/-- `c` stores `sectors`: no sector is cached twice, every valid entry holds the
stored bytes, and the inner device holds them wherever no dirty entry does. -/
structure Represents (c : CachedDevice D N) (sectors : ℕ → Sector) : Prop where
  unique : ∀ i j, (c.entries i).valid → (c.entries j).valid →
    (c.entries i).lba = (c.entries j).lba → i = j
  cached : ∀ i, (c.entries i).valid → (c.entries i).data = sectors (c.entries i).lba
  backed : ∀ lba, (∀ i, (c.entries i).valid → (c.entries i).dirty → (c.entries i).lba ≠ lba) →
    contents c.inner lba = sectors lba

theorem represents_new (inner : D) : Represents (new N inner) (contents inner) := by
  refine ⟨?_, ?_, ?_⟩
  · intro i j hi
    simp [new, CacheEntry.empty] at hi
  · intro i hi
    simp [new, CacheEntry.empty] at hi
  · intro lba _
    rfl

namespace CachedDevice

/-! ## Entry updates -/

variable {sectors : ℕ → Sector} {c : CachedDevice D N}

/-- Ages and statistics play no part in what a cache stores. -/
theorem represents_congr {c c' : CachedDevice D N} (h : Represents c sectors)
    (hinner : contents c'.inner = contents c.inner)
    (hentries : ∀ i, (c'.entries i).lba = (c.entries i).lba ∧
      (c'.entries i).data = (c.entries i).data ∧ (c'.entries i).valid = (c.entries i).valid ∧
      (c'.entries i).dirty = (c.entries i).dirty) : Represents c' sectors := by
  refine ⟨?_, ?_, ?_⟩
  · intro i j hi hj hlba
    obtain ⟨hli, -, hvi, -⟩ := hentries i
    obtain ⟨hlj, -, hvj, -⟩ := hentries j
    exact h.unique i j (hvi ▸ hi) (hvj ▸ hj) (by rw [← hli, ← hlj, hlba])
  · intro i hi
    obtain ⟨hl, hd, hv, -⟩ := hentries i
    rw [hd, hl]
    exact h.cached i (hv ▸ hi)
  intro lba hclean
  rw [hinner]
  apply h.backed lba
  intro i hi hdirty
  obtain ⟨hl, -, hv, hdy⟩ := hentries i
  rw [← hl]
  exact hclean i (hv ▸ hi) (hdy ▸ hdirty)

omit [BlockDevice D] [LawfulBlockDevice D] in
theorem touch_entry (c : CachedDevice D N) (index i : Fin N) :
    ((c.touch index).entries i).lba = (c.entries i).lba ∧
      ((c.touch index).entries i).data = (c.entries i).data ∧
      ((c.touch index).entries i).valid = (c.entries i).valid ∧
      ((c.touch index).entries i).dirty = (c.entries i).dirty := by
  by_cases hi : i = index
  · subst hi
    simp only [touch, update_self]
    split <;> simp
  · simp only [touch, update_of_ne hi]
    split <;> simp

theorem represents_touch
    (h : Represents c sectors) (index : Fin N) : Represents (c.touch index) sectors :=
  represents_congr h rfl (c.touch_entry index)

/-- Replacing a clean or invalid entry by one for a sector that is not cached
elsewhere. The stored sectors change only if the new entry is dirty. -/
theorem represents_setEntry (h : Represents c sectors) (index : Fin N) (entry : CacheEntry)
    (hclean : (c.entries index).valid → (c.entries index).dirty → (c.entries index).lba = entry.lba)
    (hvalid : entry.valid = true)
    (hfresh : ∀ i, i ≠ index → (c.entries i).valid → (c.entries i).lba ≠ entry.lba)
    (hdata : entry.dirty = false → entry.data = contents c.inner entry.lba ∧
      entry.data = sectors entry.lba) :
    Represents (c.setEntry index entry) (update sectors entry.lba entry.data) := by
  have hself : (c.setEntry index entry).entries index = entry := by
    simp [setEntry]
  have hother : ∀ i, i ≠ index → (c.setEntry index entry).entries i = c.entries i := by
    intro i hi
    simp [setEntry, update_of_ne hi]
  refine ⟨?_, ?_, ?_⟩
  · intro i j hi hj hlba
    by_cases hii : i = index <;> by_cases hji : j = index
    · rw [hii, hji]
    · subst hii
      rw [hother j hji] at hj hlba
      rw [hself] at hlba
      exact (hfresh j hji hj hlba.symm).elim
    · subst hji
      rw [hother i hii] at hi hlba
      rw [hself] at hlba
      exact (hfresh i hii hi hlba).elim
    · rw [hother i hii] at hi hlba
      rw [hother j hji] at hj hlba
      exact h.unique i j hi hj hlba
  · intro i hi
    by_cases hii : i = index
    · subst hii
      rw [hself]
      simp
    · rw [hother i hii] at hi ⊢
      rw [update_of_ne (hfresh i hii hi)]
      exact h.cached i hi
  · intro lba hlba
    by_cases hl : lba = entry.lba
    · subst hl
      rw [update_self]
      by_cases hd : entry.dirty = true
      · exact (hlba index (by rw [hself]; exact hvalid) (by rw [hself]; exact hd)
          (by rw [hself])).elim
      · exact (hdata (by simpa using hd)).1.symm
    · rw [update_of_ne hl]
      apply h.backed lba
      intro i hi hdirty heq
      by_cases hii : i = index
      · subst hii
        exact hl (heq.symm.trans (hclean hi hdirty))
      have hsame := hother i hii
      exact hlba i (by rw [hsame]; exact hi) (by rw [hsame]; exact hdirty)
        (by rw [hsame]; exact heq)

/-! ## Write-back -/

theorem represents_markClean
    (h : Represents c sectors) (index : Fin N) (hvalid : (c.entries index).valid)
    (c' : CachedDevice D N) (hentries : c'.entries = update c.entries index
      { c.entries index with dirty := false }) (hinner : contents c'.inner =
      update (contents c.inner) (c.entries index).lba (c.entries index).data) :
    Represents c' sectors := by
  have hlba : ∀ i, (c'.entries i).lba = (c.entries i).lba := by
    intro i
    by_cases hi : i = index <;> simp [hentries, update_of_ne, hi]
  have hvalid' : ∀ i, (c'.entries i).valid = (c.entries i).valid := by
    intro i
    by_cases hi : i = index <;> simp [hentries, update_of_ne, hi]
  have hdata : ∀ i, (c'.entries i).data = (c.entries i).data := by
    intro i
    by_cases hi : i = index <;> simp [hentries, update_of_ne, hi]
  refine ⟨?_, ?_, ?_⟩
  · intro i j hi hj heq
    rw [hvalid'] at hi hj
    rw [hlba, hlba] at heq
    exact h.unique i j hi hj heq
  · intro i hi
    rw [hvalid'] at hi
    rw [hdata, hlba]
    exact h.cached i hi
  intro lba hclean
  rw [hinner]
  by_cases hl : lba = (c.entries index).lba
  · subst hl
    rw [update_self]
    exact h.cached index hvalid
  rw [update_of_ne hl]
  apply h.backed lba
  intro i hi hdirty heq
  by_cases hii : i = index
  · subst hii
    exact hl heq.symm
  refine hclean i ((hvalid' i).symm ▸ hi) ?_ ((hlba i).trans heq)
  rw [hentries, update_of_ne hii]
  exact hdirty

/-- A write-back keeps the stored sectors whether or not the inner write succeeds.
Success leaves the entry clean; no other entry is touched. -/
structure WriteBackSpec (c : CachedDevice D N) (index : Fin N) (sectors : ℕ → Sector)
    (result : Except Error Unit) (c' : CachedDevice D N) : Prop where
  represents : Represents c' sectors
  lba_eq : ∀ i, (c'.entries i).lba = (c.entries i).lba
  valid_eq : ∀ i, (c'.entries i).valid = (c.entries i).valid
  dirty_of : ∀ i, (c'.entries i).dirty → (c.entries i).dirty
  clean : result = .ok () → (c'.entries index).valid → (c'.entries index).dirty = false

omit [BlockDevice D] [LawfulBlockDevice D] in
theorem ofList_slice (sector : Sector) : ofList (sector.slice 0 sectorSize) = sector := by
  apply ext_get
  intro i hi
  simp only [ofList, get_ofFn, if_pos hi]
  rw [getD_slice _ _ _ _ hi, Nat.zero_add]

theorem writeBack_spec (h : Represents c sectors) (index : Fin N) :
    WriteBackSpec c index sectors (c.writeBack index).1 (c.writeBack index).2 := by
  unfold writeBack
  by_cases hdirty : ((c.entries index).valid && (c.entries index).dirty) = true
  · obtain ⟨hv, hd⟩ := Bool.and_eq_true_iff.mp hdirty
    rw [if_pos hdirty]
    cases hw : BlockDevice.writeSector c.inner (c.entries index).lba
        ((c.entries index).data.slice 0 sectorSize) with
    | mk result inner =>
      cases result with
      | error e =>
        have hsame := write_error c.inner _ _ e (congrArg Prod.fst hw)
        rw [hw] at hsame
        exact ⟨represents_congr h hsame fun i => ⟨rfl, rfl, rfl, rfl⟩,
          fun i => rfl, fun i => rfl, fun i hi => hi, fun he => by simp at he⟩
      | ok _ =>
        have hstored := write_ok c.inner _ _ (congrArg Prod.fst hw)
        rw [hw, ofList_slice] at hstored
        refine ⟨represents_markClean h index hv _ rfl hstored, ?_, ?_, ?_, ?_⟩
        · intro i
          by_cases hi : i = index <;> simp [setEntry, update_of_ne, hi]
        · intro i
          by_cases hi : i = index <;> simp [setEntry, update_of_ne, hi]
        · intro i hi
          by_cases hii : i = index
          · exact hii ▸ hd
          · simpa [setEntry, update_of_ne hii] using hi
        · intro _ _
          simp [setEntry]
  · rw [if_neg hdirty]
    refine ⟨h, fun i => rfl, fun i => rfl, fun i hi => hi, ?_⟩
    intro _ hv
    simp only [Bool.and_eq_true, not_and, Bool.not_eq_true] at hdirty
    exact hdirty hv

/-! ## Flush -/

/-- What a pass over a list of entries leaves behind. After success all of them are clean. -/
theorem writeBackAll_spec (h : Represents c sectors) (order : List (Fin N)) :
    Represents (c.writeBackAll order).2 sectors ∧
      (∀ i, ((c.writeBackAll order).2.entries i).valid = (c.entries i).valid) ∧
      (∀ i, ((c.writeBackAll order).2.entries i).dirty → (c.entries i).dirty) ∧
      ((c.writeBackAll order).1 = .ok () → ∀ i ∈ order,
        ((c.writeBackAll order).2.entries i).valid →
          ((c.writeBackAll order).2.entries i).dirty = false) := by
  induction order generalizing c with
  | nil => exact ⟨h, fun i => rfl, fun i hi => hi, fun _ i hi => by simp at hi⟩
  | cons index rest ih =>
    have hspec := writeBack_spec h index
    simp only [writeBackAll]
    cases hw : c.writeBack index with
    | mk result c' =>
      rw [hw] at hspec
      cases result with
      | error e =>
        exact ⟨hspec.represents, hspec.valid_eq, hspec.dirty_of, fun he => by simp at he⟩
      | ok _ =>
        obtain ⟨hrep, hvalid, hdirty, hclean⟩ := ih hspec.represents
        refine ⟨hrep, fun i => (hvalid i).trans (hspec.valid_eq i),
          fun i hi => hspec.dirty_of i (hdirty i hi), ?_⟩
        intro hok i hi hv
        rcases List.mem_cons.mp hi with rfl | hi
        · have hc := hspec.clean rfl (hvalid i ▸ hv)
          by_contra hne
          have hd := hdirty i (by simpa using hne)
          rw [hc] at hd
          exact Bool.false_ne_true hd
        · exact hclean hok i hi hv

/-- The state after a successful flush: the inner device holds the stored sectors
and nothing is left to write back. -/
theorem flush_spec (h : Represents c sectors) : Represents c.flush.2 sectors ∧
      (c.flush.1 = .ok () →
        contents c.flush.2.inner = sectors ∧
        ∀ i, (c.flush.2.entries i).valid → (c.flush.2.entries i).dirty = false) := by
  obtain ⟨hrep, -, -, hclean⟩ := writeBackAll_spec h (List.finRange N)
  unfold flush
  cases hw : c.writeBackAll (List.finRange N) with
  | mk result c' =>
    rw [hw] at hrep hclean
    cases result with
    | error e => exact ⟨hrep, fun he => by simp at he⟩
    | ok _ =>
      have hinner := contents_flush c'.inner
      have hrep' : Represents { c' with inner := (BlockDevice.flush c'.inner).2 } sectors :=
        represents_congr hrep hinner fun i => ⟨rfl, rfl, rfl, rfl⟩
      have hall : ∀ i, (c'.entries i).valid → (c'.entries i).dirty = false :=
        fun i hv => hclean rfl i (List.mem_finRange i) hv
      refine ⟨hrep', fun _ => ⟨?_, hall⟩⟩
      funext lba
      apply hrep'.backed lba
      intro i hv hd
      have hc := hall i hv
      simp_all

omit [LawfulBlockDevice D] in
theorem writeBackAll_of_clean (c : CachedDevice D N)
    (hclean : ∀ i, (c.entries i).valid → (c.entries i).dirty = false) (order : List (Fin N)) :
    c.writeBackAll order = (.ok (), c) := by
  induction order with
  | nil => rfl
  | cons index rest ih =>
    have hskip : c.writeBack index = (.ok (), c) := by
      unfold writeBack
      rw [if_neg]
      intro hboth
      obtain ⟨hv, hd⟩ := Bool.and_eq_true_iff.mp hboth
      rw [hclean index hv] at hd
      exact Bool.false_ne_true hd
    rw [writeBackAll, hskip]
    exact ih

end CachedDevice

end WovenHat.BlockCache
