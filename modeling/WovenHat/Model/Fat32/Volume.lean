import WovenHat.Model.Fat32.Device

/-! # Volumes

The boot sector, the FSInfo sectors and the geometry of `fat32.rs`. Fields of the source's
types `u8`, `u16`, `u32` and `u64` are natural numbers; checked and saturating operations
are written out where they can matter. -/

namespace WovenHat.Fat32

open Library Block Fallible

def fat32MinClusters : ℕ := 65525

def fat32BadCluster : ℕ := 0x0ffffff7

def fat32EndMin : ℕ := 0x0ffffff8

/-- The values of a FAT entry, `value & FAT32_ENTRY_MASK`. -/
def entryModulus : ℕ := 0x10000000

def fsInfoUnknown : ℕ := 0xffffffff

def saturatingAdd32 (a b : ℕ) : ℕ :=
  min (a + b) fsInfoUnknown

structure Volume where
  totalSectors : ℕ
  sectorsPerCluster : ℕ
  fatCount : ℕ
  fatSize : ℕ
  rootCluster : ℕ
  firstFatSector : ℕ
  firstDataSector : ℕ
  fsInfoSector : Option ℕ
  backupFsInfoSector : Option ℕ
  clusterCount : ℕ
  deriving DecidableEq, Repr

namespace Volume

/-- `is_allocatable_cluster`, which is also the check of `cluster_lba`. -/
def isAllocatable (v : Volume) (cluster : ℕ) : Prop :=
  2 ≤ cluster ∧ cluster < saturatingAdd32 v.clusterCount 2

instance (v : Volume) (cluster : ℕ) : Decidable (v.isAllocatable cluster) :=
  inferInstanceAs (Decidable (_ ∧ _))

/-- The first sector of a cluster. -/
def lbaOf (v : Volume) (cluster : ℕ) : ℕ :=
  v.firstDataSector + (cluster - 2) * v.sectorsPerCluster

def clusterLba (v : Volume) (cluster : ℕ) : Fs ℕ :=
  if v.isAllocatable cluster then
    if v.lbaOf cluster < 2 ^ 64 then pure (v.lbaOf cluster) else throw .unsupportedGeometry
  else throw .corruptChain

/-- `volume.sectors_per_cluster as usize * SECTOR_SIZE`. -/
def bytesPerCluster (v : Volume) : ℕ :=
  v.sectorsPerCluster * sectorSize

end Volume

/-! ## FSInfo -/

def fsInfoSignaturesValid (sector : Sector) : Prop :=
  sector.readU32 0 = 0x41615252 ∧ sector.readU32 484 = 0x61417272 ∧ sector.readU32 508 = 0xaa550000

instance (sector : Sector) : Decidable (fsInfoSignaturesValid sector) :=
  inferInstanceAs (Decidable (_ ∧ _ ∧ _))

def validFsInfoSector (sectorLba reservedSectors : ℕ) : Fs (Option ℕ) :=
  if sectorLba = 0 ∨ reservedSectors ≤ sectorLba then pure none
  else do
    match ← (Fs.readSector sectorLba).attempt with
    | .error _ => pure none
    | .ok sector => pure (if fsInfoSignaturesValid sector then some sectorLba else none)

structure FsInfo where
  freeCount : ℕ
  nextFree : ℕ
  deriving DecidableEq, Repr

def sanitizeFsInfoValue (value max : ℕ) : ℕ :=
  if value = fsInfoUnknown ∨ value ≤ max then value else fsInfoUnknown

variable (v : Volume)

def sanitizeNextFree (value : ℕ) : ℕ :=
  if v.isAllocatable value then value else fsInfoUnknown

def readFsInfo : Fs (Option FsInfo) :=
  match v.fsInfoSector with
  | none => pure none
  | some sectorLba => do
      let sector ← Fs.readSector sectorLba
      if fsInfoSignaturesValid sector then
        pure (some ⟨sanitizeFsInfoValue (sector.readU32 488) v.clusterCount,
          sanitizeNextFree v (sector.readU32 492)⟩)
      else pure none

def writeFsInfoSector (sectorLba : ℕ) (info : FsInfo) : Fs Unit := do
  let sector ← Fs.readSector sectorLba
  if fsInfoSignaturesValid sector then
    Fs.writeSector sectorLba ((sector.writeU32 488 info.freeCount).writeU32 492 info.nextFree)
  else pure ()

/-- One of the two branches of `write_fs_info`. -/
def writeFsInfoCopy (sectorLba : Option ℕ) (info : FsInfo) : Fs Unit :=
  match sectorLba with
  | none => pure ()
  | some sectorLba => writeFsInfoSector sectorLba info

def writeFsInfo (info : FsInfo) : Fs Unit := do
  writeFsInfoCopy v.fsInfoSector info
  writeFsInfoCopy v.backupFsInfoSector info

def nextClusterHint (cluster : ℕ) : ℕ :=
  let next := saturatingAdd32 cluster 1
  if v.isAllocatable next then next else 2

def fsInfoNextFreeHint : Fs ℕ := do
  match ← (readFsInfo v).attempt with
  | .ok (some info) => pure (if v.isAllocatable info.nextFree then info.nextFree else 2)
  | _ => pure 2

def updateFsInfoAfterAlloc (allocated : ℕ) : Fs Unit := do
  match ← readFsInfo v with
  | none => pure ()
  | some info =>
    writeFsInfo v
      { freeCount :=
          if info.freeCount = fsInfoUnknown then info.freeCount else info.freeCount - 1
        nextFree := nextClusterHint v allocated }

def updateFsInfoAfterFree (freed firstFreed : ℕ) : Fs Unit := do
  match ← readFsInfo v with
  | none => pure ()
  | some info =>
    writeFsInfo v
      { freeCount :=
          if info.freeCount = fsInfoUnknown then info.freeCount
          else min (saturatingAdd32 info.freeCount freed) v.clusterCount
        nextFree := if v.isAllocatable firstFreed then firstFreed else info.nextFree }

/-! ## Mounting -/

def badGeometry (boot : Sector) : Prop :=
  boot.readU16 11 ≠ sectorSize ∨ (boot.get 13).toNat = 0 ∨
    (boot.get 13).toNat &&& ((boot.get 13).toNat - 1) ≠ 0 ∨ 128 < (boot.get 13).toNat ∨
    boot.readU16 14 = 0 ∨ ¬((boot.get 16).toNat = 1 ∨ (boot.get 16).toNat = 2) ∨
    boot.readU16 17 ≠ 0 ∨ boot.readU16 19 ≠ 0 ∨ boot.readU16 22 ≠ 0 ∨
    boot.readU32 32 = 0 ∨ boot.readU32 36 = 0 ∨ boot.readU32 44 < 2

instance (boot : Sector) : Decidable (badGeometry boot) := by
  unfold badGeometry
  infer_instance

/-- The backup FSInfo sector follows the backup boot sector. -/
def backupFsInfo (backupBootSector reservedSectors : ℕ) : Fs (Option ℕ) :=
  if backupBootSector = 0 then pure none
  else validFsInfoSector (backupBootSector + 1) reservedSectors

def mount : Fs Volume := do
  let boot ← Fs.readSector 0
  rejectIf (boot.get 510 ≠ 0x55 ∨ boot.get 511 ≠ 0xaa) .invalidBootSector
  rejectIf (badGeometry boot) .unsupportedGeometry
  let sectorsPerCluster := (boot.get 13).toNat
  let reservedSectors := boot.readU16 14
  let fatCount := (boot.get 16).toNat
  let totalSectors := boot.readU32 32
  let fatSize := boot.readU32 36
  let rootCluster := boot.readU32 44
  let backupBootSector := boot.readU16 50
  let sectors ← Fs.sectorCount
  rejectIf (sectors < totalSectors) .unsupportedGeometry
  -- the products and sums of the source are checked `u32` operations
  let firstData := reservedSectors + fatCount * fatSize
  rejectIf (2 ^ 32 ≤ fatCount * fatSize ∨ 2 ^ 32 ≤ firstData ∨ totalSectors < firstData)
    .unsupportedGeometry
  let clusterCount := (totalSectors - firstData) / sectorsPerCluster
  rejectIf (clusterCount < fat32MinClusters ∨ saturatingAdd32 clusterCount 2 ≤ rootCluster)
    .unsupportedGeometry
  let fsInfoSector ← validFsInfoSector (boot.readU16 48) reservedSectors
  let backupFsInfoSector ← backupFsInfo backupBootSector reservedSectors
  pure {
    totalSectors, sectorsPerCluster, fatCount, fatSize, rootCluster,
    firstFatSector := reservedSectors, firstDataSector := firstData,
    fsInfoSector, backupFsInfoSector, clusterCount }

end WovenHat.Fat32
