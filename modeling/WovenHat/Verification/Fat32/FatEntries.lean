import WovenHat.Verification.Fat32.Geometry

/-! # FAT entries do not alias

Mounting does not check that the FAT has an entry for every cluster. Without that, the entry
of a cluster beyond the first FAT copy is read from the second one, where it is the copy of
another cluster's entry. -/

namespace WovenHat.Fat32

open Library Block Fallible Function Volume Buffer

/-- The sector of one FAT copy that holds the entry of a cluster. -/
def Volume.copySector (v : Volume) (copy cluster : ℕ) : ℕ :=
  v.firstFatSector + copy * v.fatSize + cluster * 4 / sectorSize

def Volume.rawEntry (v : Volume) (disk : ℕ → Sector) (copy cluster : ℕ) : ℕ :=
  (disk (v.copySector copy cluster)).readU32 (fatOffset cluster)

def storedEntry (existing value : ℕ) : ℕ :=
  existing / entryModulus * entryModulus + value % entryModulus

def storeEntry (disk : ℕ → Sector) (lba cluster value : ℕ) : ℕ → Sector :=
  update disk lba ((disk lba).writeU32 (fatOffset cluster)
    (storedEntry ((disk lba).readU32 (fatOffset cluster)) value))

theorem storedEntry_mod (existing value : ℕ) :
    storedEntry existing value % entryModulus = value % entryModulus := by
  simp only [storedEntry, entryModulus]
  omega

theorem storedEntry_div (existing value : ℕ) :
    storedEntry existing value / entryModulus = existing / entryModulus := by
  simp only [storedEntry, entryModulus]
  omega

theorem storedEntry_lt {existing : ℕ} (h : existing < 4294967296) (value : ℕ) :
    storedEntry existing value < 4294967296 := by
  simp only [storedEntry, entryModulus]
  omega

variable {v : Volume} {d d' : Device} {disk : ℕ → Sector} {c other value lba : ℕ}

theorem fatOffset_le (cluster : ℕ) : fatOffset cluster + 4 ≤ sectorSize := by
  simp only [fatOffset, sectorSize]
  omega

theorem fatOffset_disjoint (h : fatOffset c ≠ fatOffset other) :
    fatOffset other + 4 ≤ fatOffset c ∨ fatOffset c + 4 ≤ fatOffset other := by
  simp only [fatOffset, sectorSize] at h ⊢
  omega

theorem storeEntry_self (disk : ℕ → Sector) (lba c value : ℕ) :
    (storeEntry disk lba c value lba).readU32 (fatOffset c) =
      storedEntry ((disk lba).readU32 (fatOffset c)) value := by
  rw [storeEntry, update_self, readU32_writeU32 _ _ _ (fatOffset_le c)]
  exact Nat.mod_eq_of_lt (storedEntry_lt (readU32_lt _ _) value)

variable {lba' sectors : ℕ}

theorem storeEntry_of_ne (h : lba' ≠ lba) : storeEntry disk lba c value lba' = disk lba' := by
  rw [storeEntry, update_of_ne h]

theorem storeEntry_other (h : ¬(lba' = lba ∧ fatOffset other = fatOffset c)) :
    (storeEntry disk lba c value lba').readU32 (fatOffset other) =
      (disk lba').readU32 (fatOffset other) := by
  by_cases hlba : lba' = lba
  · subst hlba
    have hoff : fatOffset c ≠ fatOffset other := fun heq => h ⟨rfl, heq.symm⟩
    rw [storeEntry, update_self,
      readU32_writeU32_of_disjoint _ _ _ _ (fatOffset_disjoint hoff)]
  · rw [storeEntry_of_ne hlba]

/-! ## Runs without a fault -/

theorem exec_readFatEntry_accepted (hv : v.Accepted sectors) (hc : v.isAllocatable c) (d : Device) :
    (readFatEntry v c).exec d =
      (if v.firstDataSector ≤ v.copySector 0 c then .error .corruptChain
        else if v.copySector 0 c < d.sectors then .ok (v.rawEntry d.disk 0 c % entryModulus)
        else .error (.block .outOfBounds), d) := by
  have hsector : v.fatSector c = v.copySector 0 c := by
    simp [fatSector, copySector]
  have hlba : (v.clusterLba c).exec d = (.ok (v.lbaOf c), d) := by
    rw [clusterLba, if_pos hc, if_pos (hv.lbaOf_lt hc)]
    rfl
  rw [readFatEntry, exec_bind_ok hlba, hsector]
  by_cases hdata : v.firstDataSector ≤ v.copySector 0 c
  · rw [if_pos hdata, exec_bind_error (exec_rejectIf_of hdata d)]
  rw [if_neg hdata, exec_bind_ok (exec_rejectIf_of_not hdata d)]
  by_cases hrange : v.copySector 0 c < d.sectors
  · rw [if_pos hrange, exec_bind_ok (exec_readSector_of_lt hrange)]
    rfl
  have hread : (Fs.readSector (v.copySector 0 c)).exec d = (.error (.block .outOfBounds), d) := by
    simp [exec_readSector, Device.read, hrange, Except.mapError]
  rw [if_neg hrange, exec_bind_error hread]

theorem exec_writeSector_ok {sector : Sector} (hfault : d.fault = none)
    (hok : (Fs.writeSector lba sector).exec d = (.ok (), d')) :
    d' = { d with disk := update d.disk lba sector } := by
  obtain ⟨sectors, disk, readOnly, fault⟩ := d
  obtain rfl : fault = none := hfault
  rw [exec_writeSector, Device.write] at hok
  split at hok
  · cases hok
  split at hok
  · cases hok
  · exact (congrArg Prod.snd hok).symm

theorem writeFatCopy_ok (hfault : d.fault = none) {copy : ℕ}
    (hok : (writeFatCopy v c value copy).exec d = (.ok (), d')) :
    v.copySector copy c < v.firstDataSector ∧ v.copySector copy c < d.sectors ∧
      d' = { d with disk := storeEntry d.disk (v.copySector copy c) c value } := by
  rw [writeFatCopy, exec_bind_eq_ok] at hok
  obtain ⟨_, _, hcheck, hok⟩ := hok
  obtain ⟨hdata, rfl⟩ := exec_rejectIf_eq_ok.mp hcheck
  obtain ⟨sector, _, hread, hwrite⟩ := exec_bind_eq_ok.mp hok
  obtain ⟨hrange, rfl, rfl⟩ := exec_readSector_eq_ok.mp hread
  refine ⟨Nat.lt_of_not_le hdata, hrange, ?_⟩
  exact exec_writeSector_ok hfault hwrite

theorem writeFatEntry_ok (hcount : v.fatCount = 1 ∨ v.fatCount = 2)
    (hdata : v.firstDataSector = v.firstFatSector + v.fatCount * v.fatSize) (hfault : d.fault = none)
    (hok : (writeFatEntry v c value).exec d = (.ok (), d')) :
    c * 4 / sectorSize < v.fatSize ∧ (∀ copy < v.fatCount, v.copySector copy c < d.sectors) ∧
      d'.sectors = d.sectors ∧
      d'.disk = (List.range v.fatCount).foldl
        (fun disk copy => storeEntry disk (v.copySector copy c) c value) d.disk := by
  obtain ⟨_, t, hlba, hok⟩ := exec_bind_eq_ok.mp hok
  have hsame : d = t := by
    rw [clusterLba] at hlba
    split at hlba
    · split at hlba
      · exact congrArg Prod.snd hlba
      · cases hlba
    · cases hlba
  rw [← hsame] at hok
  rcases hcount with hone | htwo
  · rw [hone, show List.range 1 = [0] from rfl] at hok ⊢
    rw [forM_cons] at hok
    obtain ⟨_, t, hfirst, hlast⟩ := exec_bind_eq_ok.mp hok
    obtain ⟨hbound, hrange, rfl⟩ := writeFatCopy_ok hfault hfirst
    cases hlast
    refine ⟨?_, fun copy hcopy => ?_, rfl, rfl⟩
    · rw [hdata, hone, copySector] at hbound
      omega
    · obtain rfl : copy = 0 := by omega
      exact hrange
  · rw [htwo, show List.range 2 = [0, 1] from rfl] at hok ⊢
    rw [forM_cons] at hok
    obtain ⟨_, t, hfirst, hrest⟩ := exec_bind_eq_ok.mp hok
    obtain ⟨_, hrange, rfl⟩ := writeFatCopy_ok hfault hfirst
    rw [forM_cons] at hrest
    obtain ⟨_, u, hsecond, hlast⟩ := exec_bind_eq_ok.mp hrest
    obtain ⟨hbound, hrange', rfl⟩ := writeFatCopy_ok (by exact hfault) hsecond
    cases hlast
    refine ⟨?_, fun copy hcopy => ?_, rfl, rfl⟩
    · rw [hdata, htwo, copySector] at hbound
      omega
    obtain rfl | rfl : copy = 0 ∨ copy = 1 := by omega
    · exact hrange
    · exact hrange'

/-! ## The entry of another cluster -/

/-- The two entries share a sector and an offset in the copies only if the clusters differ by
the size of a copy. -/
theorem copySector_eq_iff (v : Volume) (other c copy : ℕ) :
    (v.copySector 0 other = v.copySector copy c ∧ fatOffset other = fatOffset c) ↔
      other = c + 128 * (copy * v.fatSize) := by
  simp only [copySector, fatOffset, sectorSize, Nat.zero_mul, Nat.add_zero]
  generalize copy * v.fatSize = skipped
  omega

/-- An entry one FAT size further is read from the second copy. -/
theorem copySector_alias (h : other = c + 128 * v.fatSize) :
    v.copySector 0 other = v.copySector 1 c ∧
      ∀ disk, v.rawEntry disk 0 other = v.rawEntry disk 1 c := by
  have hplace := (copySector_eq_iff v other c 1).mpr (by rwa [Nat.one_mul])
  refine ⟨hplace.1, fun disk => ?_⟩
  rw [rawEntry, rawEntry, hplace.1, hplace.2]

/-- The entry of a cluster is kept in different sectors by the copies. -/
theorem copySector_ne (hsize : 0 < v.fatSize) {copy copy' : ℕ} (h : copy ≠ copy') :
    v.copySector copy c ≠ v.copySector copy' c := by
  intro heq
  simp only [copySector] at heq
  have hmul : copy * v.fatSize = copy' * v.fatSize := by omega
  exact h (Nat.eq_of_mul_eq_mul_right hsize hmul)

/-- What a write of a FAT entry should do. -/
structure FatEntryWritten (v : Volume) (c other value : ℕ) (d d' : Device) : Prop where
  read : ((readFatEntry v c).exec d').1 = .ok (value % entryModulus)
  other : ((readFatEntry v other).exec d').1 = ((readFatEntry v other).exec d).1
  reserved : ∀ copy < v.fatCount,
    v.rawEntry d'.disk copy c / entryModulus = v.rawEntry d.disk copy c / entryModulus
  copies : ∀ copy < v.fatCount,
    v.rawEntry d'.disk copy c % entryModulus = v.rawEntry d'.disk 0 c % entryModulus
  data : ∀ lba, v.firstDataSector ≤ lba → d'.disk lba = d.disk lba

/-- The entry of `other` lies in the second FAT copy, where the write changes it. -/
def FatAlias (v : Volume) (c other value : ℕ) (d : Device) : Prop :=
  v.fatCount = 2 ∧ other = c + 128 * v.fatSize ∧
    v.rawEntry d.disk 1 c % entryModulus ≠ value % entryModulus

structure Copied (v : Volume) (c value : ℕ) (disk disk' : ℕ → Sector) : Prop where
  stored : ∀ copy < v.fatCount, v.rawEntry disk' copy c = storedEntry (v.rawEntry disk copy c) value
  kept : ∀ other, (∀ copy < v.fatCount, other ≠ c + 128 * (copy * v.fatSize)) →
    v.rawEntry disk' 0 other = v.rawEntry disk 0 other
  away : ∀ lba, (∀ copy < v.fatCount, lba ≠ v.copySector copy c) → disk' lba = disk lba

theorem copied_range (hcount : v.fatCount = 1 ∨ v.fatCount = 2) (hsize : 0 < v.fatSize) :
    Copied v c value disk ((List.range v.fatCount).foldl
      (fun disk copy => storeEntry disk (v.copySector copy c) c value) disk) := by
  have hmiss : ∀ (disk : ℕ → Sector) {copy other : ℕ}, other ≠ c + 128 * (copy * v.fatSize) →
      v.rawEntry (storeEntry disk (v.copySector copy c) c value) 0 other =
        v.rawEntry disk 0 other :=
    fun disk copy other hne => storeEntry_other fun heq => hne ((copySector_eq_iff v other c copy).mp heq)
  rcases hcount with hone | htwo
  · rw [hone]
    refine ⟨fun copy hcopy => ?_, fun other hne => ?_, fun lba hne => ?_⟩
    · obtain rfl : copy = 0 := by omega
      exact storeEntry_self disk _ c value
    · exact hmiss disk (hne 0 (by omega))
    · exact storeEntry_of_ne (hne 0 (by omega))
  · rw [htwo]
    have hsectors : v.copySector 0 c ≠ v.copySector 1 c := copySector_ne hsize (by omega)
    refine ⟨fun copy hcopy => ?_, fun other hne => ?_, fun lba hne => ?_⟩
    · obtain rfl | rfl : copy = 0 ∨ copy = 1 := by omega
      · refine (congrArg (readU32 · (fatOffset c)) (storeEntry_of_ne hsectors)).trans ?_
        exact storeEntry_self disk _ c value
      refine (storeEntry_self _ _ c value).trans ?_
      rw [storeEntry_of_ne hsectors.symm]
      rfl
    · exact (hmiss _ (hne 1 (by omega))).trans (hmiss disk (hne 0 (by omega)))
    · exact (storeEntry_of_ne (hne 1 (by omega))).trans (storeEntry_of_ne (hne 0 (by omega)))

/-- On an accepted volume, a write of a FAT entry that succeeds does what it should exactly if
the other cluster's entry is not the second copy of this one. -/
theorem fatEntryWritten_iff {d₀ : Device} (hmount : (mount.exec d₀).1 = .ok v)
    (hfault : d.fault = none) (hc : v.isAllocatable c) (hother : v.isAllocatable other)
    (hne : c ≠ other) (hok : (writeFatEntry v c value).exec d = (.ok (), d')) :
    FatEntryWritten v c other value d d' ↔ ¬FatAlias v c other value d := by
  have hv := accepted_of_mount hmount
  obtain ⟨hindex, hrange, hsectors, hdisk⟩ := writeFatEntry_ok hv.fatCount hv.firstData hfault hok
  have hcopied : Copied v c value d.disk d'.disk :=
    hdisk ▸ copied_range hv.fatCount (Nat.zero_lt_of_lt hindex)
  have hcount : 0 < v.fatCount := by rcases hv.fatCount with h | h <;> omega
  have hbelow : ∀ copy < v.fatCount, v.copySector copy c < v.firstDataSector := by
    intro copy hcopy
    have hmul : (copy + 1) * v.fatSize ≤ v.fatCount * v.fatSize := Nat.mul_le_mul_right _ hcopy
    rw [Nat.add_mul, Nat.one_mul] at hmul
    rw [hv.firstData, Volume.copySector]
    omega
  have hreads := fun t : Device => congrArg Prod.fst (exec_readFatEntry_accepted hv hother t)
  constructor
  · rintro hwritten ⟨htwo, halias, hchange⟩
    obtain ⟨hplace, hraw⟩ := copySector_alias halias
    have hsame := hwritten.other
    rw [hreads, hreads, hsectors, hplace, hraw, hraw, hcopied.stored 1 (by omega)] at hsame
    simp only [Nat.not_le.mpr (hbelow 1 (by omega)), hrange 1 (by omega), ↓reduceIte,
      storedEntry_mod] at hsame
    exact hchange (Except.ok.inj hsame).symm
  · intro halias
    refine ⟨?_, ?_, fun copy hcopy => ?_, fun copy hcopy => ?_, fun lba hlba => ?_⟩
    · rw [exec_readFatEntry_accepted hv hc, hsectors,
        if_neg (Nat.not_le.mpr (hbelow 0 hcount)), if_pos (hrange 0 hcount), hcopied.stored 0 hcount,
        storedEntry_mod]
    · have hentry : v.rawEntry d'.disk 0 other % entryModulus =
          v.rawEntry d.disk 0 other % entryModulus := by
        by_cases hsecond : v.fatCount = 2 ∧ other = c + 128 * v.fatSize
        · obtain ⟨_, hraw⟩ := copySector_alias hsecond.2
          rw [hraw, hraw, hcopied.stored 1 (by omega), storedEntry_mod]
          by_contra hdiffers
          exact halias ⟨hsecond.1, hsecond.2, fun heq => hdiffers heq.symm⟩
        rw [hcopied.kept other fun copy hcopy heq => ?_]
        rcases hv.fatCount with hone | htwo
        · obtain rfl : copy = 0 := by omega
          omega
        obtain rfl | rfl : copy = 0 ∨ copy = 1 := by omega
        · omega
        · exact hsecond ⟨htwo, by omega⟩
      rw [hreads, hreads, hsectors, hentry]
    · rw [hcopied.stored copy hcopy, storedEntry_div]
    · rw [hcopied.stored copy hcopy, hcopied.stored 0 hcount, storedEntry_mod, storedEntry_mod]
    · refine hcopied.away lba fun copy hcopy heq => ?_
      have := hbelow copy hcopy
      omega

/-- A volume of 65525 clusters whose FAT copies have entries for 51200 of them. -/
def shortFatVolume : Volume :=
  { sampleVolume with totalSectors := 66326, fatSize := 400, firstDataSector := 801 }

/-- The disk of that volume, with an empty FAT. -/
def shortFatDevice : Device where
  sectors := 66326
  disk lba := if lba = 0 then (sampleBoot.writeU32 32 66326).writeU32 36 400 else zero
  readOnly := false
  fault := none

/-- Writing the entry of cluster 2 changes the entry of cluster 51202. -/
theorem fatEntry_aliases : (mount.exec shortFatDevice).1 = .ok shortFatVolume ∧
      shortFatVolume.isAllocatable 2 ∧ shortFatVolume.isAllocatable 51202 ∧
      ((writeFatEntry shortFatVolume 2 7).exec shortFatDevice).1 = .ok () ∧
      ((readFatEntry shortFatVolume 51202).exec shortFatDevice).1 = .ok 0 ∧
      ((readFatEntry shortFatVolume 51202).exec
        ((writeFatEntry shortFatVolume 2 7).exec shortFatDevice).2).1 = .ok 7 := by
  decide +kernel

theorem fatEntryWritten_iff_sample : FatEntryWritten sampleVolume 2 3 7 (sampleDevice [] [])
        ((writeFatEntry sampleVolume 2 7).exec (sampleDevice [] [])).2 ↔
      ¬FatAlias sampleVolume 2 3 7 (sampleDevice [] []) :=
  fatEntryWritten_iff mount_sampleDevice rfl (by decide) (by decide) (by decide)
    (Prod.ext (by decide +kernel) rfl)

end WovenHat.Fat32
