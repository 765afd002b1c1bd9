import WovenHat.Model.Fat32.Table
import WovenHat.Library.LinkedChain

/-! # Mounted volumes -/

namespace WovenHat.Fat32

open Library Block Fallible

/-! ## Calls to the device -/

@[simp] theorem exec_sectorCount (d : Device) : Fs.sectorCount.exec d = (.ok d.sectors, d) := rfl

theorem exec_readSector (lba : ℕ) (d : Device) :
    (Fs.readSector lba).exec d = ((d.read lba).mapError .block, d) := rfl

theorem exec_writeSector (lba : ℕ) (sector : Sector) (d : Device) :
    (Fs.writeSector lba sector).exec d =
      ((d.write lba sector).1.mapError .block, (d.write lba sector).2) := rfl

variable {d : Device} {result : Option ℕ} {v : Volume} {sectors : ℕ} {lba : ℕ} {d' : Device}

theorem exec_readSector_of_lt (h : lba < d.sectors) :
    (Fs.readSector lba).exec d = (.ok (d.disk lba), d) := by
  simp [exec_readSector, Device.read, h, Except.mapError]

theorem exec_readSector_eq_ok {sector : Sector} : (Fs.readSector lba).exec d = (.ok sector, d') ↔
      lba < d.sectors ∧ sector = d.disk lba ∧ d' = d := by
  rw [exec_readSector, Device.read]
  split <;> simp_all [Except.mapError, eq_comm]

/-! ## What mounting guarantees -/

def Volume.FatFits (v : Volume) : Prop :=
  (v.clusterCount + 2) * 4 ≤ v.fatSize * sectorSize

instance (v : Volume) : Decidable v.FatFits :=
  inferInstanceAs (Decidable (_ ≤ _))

/-- The geometry that `mount` accepts on a device with `sectors` sectors. -/
structure Volume.Accepted (v : Volume) (sectors : ℕ) : Prop where
  cluster_pos : 0 < v.sectorsPerCluster
  fatCount : v.fatCount = 1 ∨ v.fatCount = 2
  firstFat_pos : 0 < v.firstFatSector
  firstData : v.firstDataSector = v.firstFatSector + v.fatCount * v.fatSize
  room : v.firstDataSector + v.clusterCount * v.sectorsPerCluster ≤ v.totalSectors
  total : v.totalSectors ≤ sectors
  total_lt : v.totalSectors < 2 ^ 32
  root : v.isAllocatable v.rootCluster
  fsInfo : ∀ lba, v.fsInfoSector = some lba → 0 < lba ∧ lba < v.firstFatSector
  backup : ∀ lba, v.backupFsInfoSector = some lba → 0 < lba ∧ lba < v.firstFatSector

/-- The geometry of a mounted volume on a device with `sectors` sectors, at most as many
as 28-bit block addresses reach. -/
structure Volume.Mounted (v : Volume) (sectors : ℕ) : Prop where
  cluster_pos : 0 < v.sectorsPerCluster
  fatCount : v.fatCount = 1 ∨ v.fatCount = 2
  firstFat_pos : 0 < v.firstFatSector
  firstData : v.firstDataSector = v.firstFatSector + v.fatCount * v.fatSize
  room : v.firstDataSector + v.clusterCount * v.sectorsPerCluster ≤ sectors
  addressable : sectors ≤ 2 ^ 28
  root : v.isAllocatable v.rootCluster
  fsInfo : ∀ lba, v.fsInfoSector = some lba → lba < v.firstFatSector
  backup : ∀ lba, v.backupFsInfoSector = some lba → lba < v.firstFatSector
  fits : v.FatFits

theorem validFsInfoSector_ok {reserved : ℕ}
    (h : (validFsInfoSector lba reserved).exec d = (.ok result, d')) :
    d' = d ∧ ∀ found, result = some found → 0 < found ∧ found < reserved := by
  unfold validFsInfoSector at h
  split at h
  · cases h
    simp
  rename_i hrange
  rw [exec_bind_ok (exec_attempt _ d), exec_readSector] at h
  cases hread : d.read lba with
  | error e =>
    rw [hread] at h
    cases h
    simp
  | ok sector =>
    rw [hread] at h
    cases h
    refine ⟨rfl, ?_⟩
    intro found hfound
    split at hfound
    · cases hfound
      omega
    · cases hfound

theorem backupFsInfo_ok {boot reserved : ℕ}
    (h : (backupFsInfo boot reserved).exec d = (.ok result, d')) :
    d' = d ∧ ∀ found, result = some found → 0 < found ∧ found < reserved := by
  unfold backupFsInfo at h
  split at h
  · cases h
    simp
  · exact validFsInfoSector_ok h

theorem accepted_of_mount (hmount : (mount.exec d).1 = .ok v) : v.Accepted d.sectors := by
  have hexec : mount.exec d = (.ok v, (mount.exec d).2) := by rw [← hmount]
  simp only [mount, exec_bind_eq_ok, exec_rejectIf_eq_ok, exec_readSector_eq_ok,
    exec_sectorCount, Prod.mk.injEq, Except.ok.injEq, exec_pure] at hexec
  obtain ⟨boot, _, ⟨_, _, rfl⟩, _, _, ⟨_, rfl⟩, _, _, ⟨hgeometry, rfl⟩, sectors, _,
    ⟨rfl, rfl⟩, _, _, ⟨htotal, rfl⟩, _, _, ⟨hchecked, rfl⟩, _, _, ⟨hcount, rfl⟩,
    info, _, hinfo, backup, _, hbackup, rfl, _⟩ := hexec
  obtain ⟨rfl, hinfoRange⟩ := validFsInfoSector_ok hinfo
  obtain ⟨_, hbackupRange⟩ := backupFsInfo_ok hbackup
  simp only [badGeometry, not_or, not_not] at hgeometry
  obtain ⟨_, hcluster, _, _, hreserved, hcopies, _, _, _, _, _, hroot⟩ := hgeometry
  simp only [not_or, not_le, not_lt] at htotal hchecked hcount hroot
  have hcopies : (boot.get 16).toNat = 1 ∨ (boot.get 16).toNat = 2 := by omega
  refine ⟨Nat.pos_of_ne_zero hcluster, hcopies, Nat.pos_of_ne_zero hreserved, rfl, ?_, htotal,
    boot.readU32_lt 32, ⟨hroot, hcount.2⟩, hinfoRange, hbackupRange⟩
  have hdata := Nat.div_mul_le_self
    (boot.readU32 32 - (boot.readU16 14 + (boot.get 16).toNat * boot.readU32 36))
    (boot.get 13).toNat
  dsimp only
  omega

theorem Volume.Accepted.lbaOf_lt {cluster : ℕ} (h : v.Accepted sectors)
    (hc : v.isAllocatable cluster) : v.lbaOf cluster < 2 ^ 64 := by
  have hroom := h.room
  have htotal := h.total_lt
  have hhigh := hc.2
  simp only [saturatingAdd32] at hhigh
  have hmul : (cluster - 2) * v.sectorsPerCluster ≤ v.clusterCount * v.sectorsPerCluster :=
    Nat.mul_le_mul_right _ (by omega)
  unfold lbaOf
  omega

theorem Volume.Accepted.mounted (h : v.Accepted sectors)
    (haddr : sectors ≤ 2 ^ 28) (hfits : v.FatFits) : v.Mounted sectors :=
  ⟨h.cluster_pos, h.fatCount, h.firstFat_pos, h.firstData, h.room.trans h.total, haddr, h.root,
    fun lba hlba => (h.fsInfo lba hlba).2, fun lba hlba => (h.backup lba hlba).2, hfits⟩

/-- The volume has been mounted from this device, at the time or earlier. Its FAT has an
entry for every cluster, which mounting does not check; the device has no more sectors
than `LBA28_SECTORS`, to which `identify_sector_count` limits a disk. -/
structure Device.Mounts (d : Device) (v : Volume) : Prop where
  mount : ∃ d₀ : Device, d₀.sectors = d.sectors ∧ (mount.exec d₀).1 = .ok v
  address : d.sectors ≤ 2 ^ 28
  fits : v.FatFits

theorem Device.Mounts.mounted (h : d.Mounts v) : v.Mounted d.sectors := by
  obtain ⟨d₀, hsectors, hmount⟩ := h.mount
  rw [← hsectors]
  exact (accepted_of_mount hmount).mounted (hsectors ▸ h.address) h.fits

/-! A small volume for examples: clusters of one sector, two FAT copies of 512 sectors, the
root directory in cluster 2. -/

def sampleBoot : Sector :=
  (((((((((Buffer.zero.writeU16 11 512).set 13 1).writeU16 14 1).set 16 2).writeU32 32
    66550).writeU32 36 512).writeU32 44 2).set 510 0x55).set 511 0xaa)

def sampleVolume : Volume where
  totalSectors := 66550
  sectorsPerCluster := 1
  fatCount := 2
  fatSize := 512
  rootCluster := 2
  firstFatSector := 1
  firstDataSector := 1025
  fsInfoSector := none
  backupFsInfoSector := none
  clusterCount := 65525

variable (entries : List (ℕ × ℕ))

def sampleFat (index : ℕ) : Sector :=
  entries.foldl (fun sector entry =>
    if entry.1 * 4 / sectorSize = index then sector.writeU32 (fatOffset entry.1) entry.2
    else sector) Buffer.zero

/-- The volume with the given FAT entries and cluster contents. -/
def sampleDevice (contents : List (ℕ × Sector)) : Device where
  sectors := 66550
  disk lba :=
    if lba = 0 then sampleBoot
    else if lba < 1025 then sampleFat entries ((lba - 1) % 512)
    else (contents.lookup (lba - 1025 + 2)).getD Buffer.zero
  readOnly := false
  fault := none

theorem mount_sampleDevice : (mount.exec (sampleDevice [] [])).1 = .ok sampleVolume := by
  decide +kernel

theorem mounts_sampleDevice (contents : List (ℕ × Sector)) :
    (sampleDevice entries contents).Mounts sampleVolume :=
  ⟨⟨sampleDevice [] [], rfl, mount_sampleDevice⟩, show 66550 ≤ 2 ^ 28 by decide, by decide⟩

namespace Volume.Mounted

variable {v : Volume} {sectors cluster : ℕ}

theorem clusters_lt (hm : v.Mounted sectors) : v.clusterCount + 2 ≤ fat32BadCluster := by
  have hfits := hm.fits
  have hroom := hm.room
  have haddr := hm.addressable
  have hdata := hm.firstData
  have hcopies : v.fatSize ≤ v.fatCount * v.fatSize := by
    rcases hm.fatCount with h | h <;> rw [h] <;> omega
  have hclusters : v.clusterCount ≤ v.clusterCount * v.sectorsPerCluster :=
    Nat.le_mul_of_pos_right _ hm.cluster_pos
  simp only [FatFits, sectorSize] at hfits
  simp only [fat32BadCluster]
  omega

theorem allocatable_iff (hm : v.Mounted sectors) :
    v.isAllocatable cluster ↔ 2 ≤ cluster ∧ cluster < v.clusterCount + 2 := by
  have := hm.clusters_lt
  simp only [fat32BadCluster] at this
  simp only [isAllocatable, saturatingAdd32, fsInfoUnknown]
  omega

theorem mod_eq (hm : v.Mounted sectors) (hc : v.isAllocatable cluster) :
    cluster % entryModulus = cluster := by
  have hlt := (hm.allocatable_iff.mp hc).2
  have hbad := hm.clusters_lt
  simp only [fat32BadCluster] at hbad
  simp only [entryModulus]
  omega

theorem lba_lt (hm : v.Mounted sectors) (hc : v.isAllocatable cluster) {index : ℕ}
    (hindex : index < v.sectorsPerCluster) : v.lbaOf cluster + index < sectors := by
  have hroom := hm.room
  obtain ⟨hlow, hhigh⟩ := hm.allocatable_iff.mp hc
  have hmul : (cluster - 2 + 1) * v.sectorsPerCluster ≤ v.clusterCount * v.sectorsPerCluster :=
    Nat.mul_le_mul_right _ (by omega)
  rw [Nat.add_mul, Nat.one_mul] at hmul
  unfold lbaOf
  omega

theorem firstData_le_lba (v : Volume) (cluster index : ℕ) :
    v.firstDataSector ≤ v.lbaOf cluster + index := by
  unfold lbaOf
  omega

section Mounted

variable (hm : v.Mounted sectors)

include hm

theorem lba_inj {cluster' index index' : ℕ} (hc : v.isAllocatable cluster)
    (hc' : v.isAllocatable cluster') (hi : index < v.sectorsPerCluster)
    (hi' : index' < v.sectorsPerCluster) (h : v.lbaOf cluster + index = v.lbaOf cluster' + index') :
    cluster = cluster' ∧ index = index' := by
  obtain ⟨hlow, _⟩ := hm.allocatable_iff.mp hc
  obtain ⟨hlow', _⟩ := hm.allocatable_iff.mp hc'
  unfold lbaOf at h
  have hsum : index + v.sectorsPerCluster * (cluster - 2) =
      index' + v.sectorsPerCluster * (cluster' - 2) := by
    rw [Nat.mul_comm _ (cluster - 2), Nat.mul_comm _ (cluster' - 2)]
    omega
  have hdiv := congrArg (· / v.sectorsPerCluster) hsum
  have hmod := congrArg (· % v.sectorsPerCluster) hsum
  simp only [Nat.add_mul_div_left _ _ hm.cluster_pos, Nat.div_eq_of_lt hi, Nat.div_eq_of_lt hi',
    Nat.add_mul_mod_self_left, Nat.mod_eq_of_lt hi, Nat.mod_eq_of_lt hi'] at hdiv hmod
  omega

theorem fatSector_lt (hc : v.isAllocatable cluster) :
    v.fatSector cluster < v.firstFatSector + v.fatSize := by
  have hfits := hm.fits
  obtain ⟨_, hhigh⟩ := hm.allocatable_iff.mp hc
  simp only [FatFits, sectorSize] at hfits
  simp only [fatSector, sectorSize]
  omega

theorem fatCopy_lt (hc : v.isAllocatable cluster) {copy : ℕ} (hcopy : copy < v.fatCount) :
    v.firstFatSector + copy * v.fatSize + cluster * 4 / sectorSize < v.firstDataSector := by
  have hsector := hm.fatSector_lt hc
  have hmul : (copy + 1) * v.fatSize ≤ v.fatCount * v.fatSize := Nat.mul_le_mul_right _ hcopy
  rw [Nat.add_mul, Nat.one_mul] at hmul
  rw [hm.firstData]
  unfold fatSector at hsector
  omega

theorem fatSector_lt_firstData (hc : v.isAllocatable cluster) :
    v.fatSector cluster < v.firstDataSector := by
  have hcopies : 0 < v.fatCount := by rcases hm.fatCount with h | h <;> omega
  simpa [fatSector] using hm.fatCopy_lt hc hcopies

theorem firstData_le : v.firstDataSector ≤ sectors := by
  have := hm.room
  omega

end Mounted

end Volume.Mounted

theorem exec_clusterLba (hm : v.Mounted sectors) (cluster : ℕ) (d : Device) :
    (v.clusterLba cluster).exec d =
      (if v.isAllocatable cluster then .ok (v.lbaOf cluster) else .error .corruptChain, d) := by
  unfold Volume.clusterLba
  split
  · rename_i hc
    have hlba := hm.lba_lt hc hm.cluster_pos
    have haddr := hm.addressable
    rw [if_pos (by omega)]
    rfl
  · rfl

end WovenHat.Fat32
