import WovenHat.Verification.Fat32.Tree

/-! # Writing slots -/

namespace WovenHat.Fat32

open Library Block Fallible Buffer View

variable {v : Volume} {d : Device} {w : View} {p : Place}

/-! ## The fields of a changed slot -/

variable {off : ℕ} {e : DirectoryEntry} {off' : ℕ}

theorem entryAt_of_tail {s t : Sector}
    (h : ∀ k, 11 ≤ k → k < 32 → s.get (off + k) = t.get (off' + k)) :
    entryAt s off = { entryAt t off' with shortName := s.slice off 11 } := by
  have h16 : ∀ k, 11 ≤ k → k + 2 ≤ 32 → s.readU16 (off + k) = t.readU16 (off' + k) := by
    intro k hlow hhigh
    refine readU16_congr fun i hi => ?_
    rw [Nat.add_assoc, Nat.add_assoc]
    exact h _ (by omega) (by omega)
  have h32 : s.readU32 (off + 28) = t.readU32 (off' + 28) := by
    refine readU32_congr fun i hi => ?_
    rw [Nat.add_assoc, Nat.add_assoc]
    exact h _ (by omega) (by omega)
  rw [entryAt, entryAt, h16 20 (by omega) (by omega), h16 26 (by omega) (by omega), h32,
    h 11 (by omega) (by omega)]

theorem entryAt_congr {s t : Sector}
    (h : ∀ k, k < 32 → s.get (off + k) = t.get (off' + k)) : entryAt s off = entryAt t off' := by
  rw [entryAt_of_tail fun k _ hk => h k hk, slice_congr fun i hi => h i (by omega)]
  rfl

/-! ## Other slots -/

def InSlot (off : ℕ) (f : Sector → Sector) : Prop :=
  ∀ s j, j < off ∨ off + 32 ≤ j → (f s).get j = s.get j

theorem inSlot_set (off : ℕ) (byte : UInt8) : InSlot off (·.set off byte) := by
  intro s j hj
  rw [get_set]
  split
  · rw [if_neg (by omega)]
  · rw [get_of_le _ (by omega)]

theorem slotChange_setData {f : Sector → Sector} (h : InSlot p.offset f) (w : View) :
    SlotChange w (w.setData p.cluster p.index (f (w.sectorAt p))) p where
  fat := rfl
  data c hc := setData_data_of_ne w hc _ _
  entry q hq := by
    by_cases hsector : q.cluster = p.cluster ∧ q.index = p.index
    · have hslot : q.slot ≠ p.slot := by
        intro hslot
        apply hq
        cases p
        cases q
        simp_all
      have hat : (w.setData p.cluster p.index (f (w.sectorAt p))).sectorAt q = f (w.sectorAt p) := by
        simp [sectorAt, setData, hsector]
      have hbefore : w.sectorAt q = w.sectorAt p := by
        simp [sectorAt, hsector]
      rw [entry, entry, hat, hbefore]
      refine entryAt_congr fun k hk => h _ _ ?_
      simp only [Place.offset, directoryEntrySize]
      omega
    · have hat : (w.setData p.cluster p.index (f (w.sectorAt p))).sectorAt q = w.sectorAt q := by
        by_cases hcluster : q.cluster = p.cluster
        · have hindex : q.index ≠ p.index := fun hindex => hsector ⟨hcluster, hindex⟩
          simp [sectorAt, setData, hcluster, hindex]
        · simp [sectorAt, setData, hcluster]
      rw [entry, entry, hat]

theorem post_modifySector (hm : v.Mounted d.sectors) (hc : v.isAllocatable p.cluster)
    (hi : p.index < v.sectorsPerCluster) (f : Sector → Sector) :
    (modifySector (p.lba v) f).Post d fun r d' =>
      (r = .ok () → v.view d'.disk = (v.view d.disk).setData p.cluster p.index
          (f ((v.view d.disk).sectorAt p))) ∧
        (r ≠ .ok () → v.view d'.disk = v.view d.disk) :=
  Post.step (exec_readSector_data hm hc hi) (post_writeSector_data hm hc hi _)

end WovenHat.Fat32
