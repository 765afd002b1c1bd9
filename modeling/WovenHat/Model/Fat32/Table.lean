import WovenHat.Model.Fat32.Volume

/-! # The file allocation table

Cluster chains of `fat32.rs`: following them, allocating, freeing, and the file data in
them. A loop that the source bounds by a counter recurses on what is left of it. -/

namespace WovenHat.Fat32

open Library Block Fallible

inductive ClusterLink where
  | next (cluster : ℕ)
  | last
  deriving DecidableEq, Repr

variable (v : Volume)

/-- The sector of the first FAT copy that holds the entry of a cluster. -/
def Volume.fatSector (cluster : ℕ) : ℕ :=
  v.firstFatSector + cluster * 4 / sectorSize

def fatOffset (cluster : ℕ) : ℕ :=
  cluster * 4 % sectorSize

def readFatEntry (cluster : ℕ) : Fs ℕ := do
  let _ ← v.clusterLba cluster
  rejectIf (v.firstDataSector ≤ v.fatSector cluster) .corruptChain
  let sector ← Fs.readSector (v.fatSector cluster)
  pure (sector.readU32 (fatOffset cluster) % entryModulus)

/-- `next_cluster`, which reads the entry as `read_fat_entry` does. -/
def nextCluster (cluster : ℕ) : Fs ClusterLink := do
  let value ← readFatEntry v cluster
  if fat32EndMin ≤ value then pure .last
  else if value < 2 ∨ value = fat32BadCluster then throw .corruptChain
  else do
    let _ ← v.clusterLba value
    pure (.next value)

/-- The entry of a cluster in one FAT copy: the loop body of `write_fat_entry`. The
reserved high nibble is kept. -/
def writeFatCopy (cluster value copy : ℕ) : Fs Unit := do
  let fatSector := v.firstFatSector + copy * v.fatSize + cluster * 4 / sectorSize
  rejectIf (v.firstDataSector ≤ fatSector) .corruptChain
  let sector ← Fs.readSector fatSector
  let existing := sector.readU32 (fatOffset cluster)
  let newValue := existing / entryModulus * entryModulus + value % entryModulus
  Fs.writeSector fatSector (sector.writeU32 (fatOffset cluster) newValue)

def writeFatEntry (cluster value : ℕ) : Fs Unit := do
  let _ ← v.clusterLba cluster
  (List.range v.fatCount).forM (writeFatCopy v cluster value)

/-! ## Following chains -/

structure ChainCycleGuard where
  tortoise : ℕ
  hare : ℕ
  active : Bool
  steps : ℕ

def ChainCycleGuard.new (start : ℕ) : ChainCycleGuard :=
  ⟨start, start, true, 0⟩

def ChainCycleGuard.advance (g : ChainCycleGuard) : Fs ChainCycleGuard := do
  if g.active = false then pure g
  else if v.clusterCount < g.steps + 1 then throw .chainTooLong
  else
    let g := { g with steps := g.steps + 1 }
    match ← nextCluster v g.tortoise with
    | .last => pure { g with active := false }
    | .next tortoise =>
      match ← nextCluster v g.hare with
      | .last => pure { g with tortoise, active := false }
      | .next firstHare =>
        match ← nextCluster v firstHare with
        | .last => pure { g with tortoise, hare := firstHare, active := false }
        | .next hare =>
          if tortoise = hare then throw .chainLoop
          else pure { g with tortoise, hare }

/-- The loop of `validate_cluster_chain`, with `fuel` more clusters allowed. -/
def validateLoop (v : Volume) : ℕ → ℕ → ChainCycleGuard → Fs Unit
  | 0, _, _ => throw .chainTooLong
  | fuel + 1, cluster, guard => do
      match ← nextCluster v cluster with
      | .last => pure ()
      | .next next =>
        let guard ← guard.advance v
        validateLoop v fuel next guard

def validateClusterChain (start : ℕ) : Fs Unit :=
  validateLoop v v.clusterCount start (.new start)

/-- The loop of `free_cluster_chain`. -/
def freeLoop (v : Volume) (start : ℕ) : ℕ → ℕ → ℕ → Fs Unit
  | 0, _, _ => throw .chainTooLong
  | fuel + 1, cluster, freed => do
      let link ← nextCluster v cluster
      writeFatEntry v cluster 0
      match link with
      | .next next => freeLoop v start fuel next (freed + 1)
      | .last => (updateFsInfoAfterFree v (freed + 1) start).ignore

def freeClusterChain (start : ℕ) : Fs Unit :=
  if start < 2 then pure ()
  else do
    validateClusterChain v start
    freeLoop v start v.clusterCount start 0

/-! ## Allocation -/

/-- `allocate_cluster_in_range`, over `count` clusters from `cluster` on. -/
def allocateInRange (v : Volume) : ℕ → ℕ → Fs ℕ
  | _, 0 => throw .noSpace
  | cluster, count + 1 => do
      let value ← readFatEntry v cluster
      if value = 0 then
        writeFatEntry v cluster fat32EndMin
        (updateFsInfoAfterAlloc v cluster).ignore
        pure cluster
      else allocateInRange v (cluster + 1) count

def allocateCluster : Fs ℕ := do
  rejectIf (2 ^ 32 ≤ v.clusterCount + 2) .unsupportedGeometry
  let hint ← fsInfoNextFreeHint v
  let start := if v.isAllocatable hint then hint else 2
  match ← (allocateInRange v start (v.clusterCount + 2 - start)).attempt with
  | .ok cluster => pure cluster
  | .error e =>
    if e = .noSpace ∧ 2 < start then allocateInRange v 2 (start - 2) else throw e

/-- The loop of `allocate_file_chain`, with `count` clusters still to allocate after
`previous`; `first` is the head of the chain, or zero before the first one. -/
def allocateChainLoop (v : Volume) : ℕ → ℕ → ℕ → Fs ℕ
  | 0, first, _ => pure first
  | count + 1, first, previous => do
      let cluster ← (allocateCluster v).onError (runIf (2 ≤ first) (freeClusterChain v first))
      if first = 0 then allocateChainLoop v count cluster cluster
      else do
        (writeFatEntry v previous cluster).onError do
          (freeClusterChain v cluster).ignore
          runIf (2 ≤ first) (freeClusterChain v first)
        allocateChainLoop v count first cluster

def allocateFileChain (neededClusters : ℕ) : Fs ℕ :=
  allocateChainLoop v neededClusters 0 0

/-! ## File data -/

/-- The sectors of one cluster in `write_file_data_chain`: each takes the next 512 bytes,
padded with zeros. -/
def writeClusterData (base : ℕ) : ℕ → ℕ → List UInt8 → Fs (List UInt8)
  | _, 0, remaining => pure remaining
  | index, count + 1, remaining => do
      Fs.writeSector (base + index) (Buffer.ofList (remaining.take sectorSize))
      writeClusterData base (index + 1) count (remaining.drop sectorSize)

/-- The loop of `write_file_data_chain`. -/
def writeDataLoop (v : Volume) : ℕ → ℕ → List UInt8 → Fs Unit
  | 0, _, _ => throw .chainTooLong
  | fuel + 1, cluster, remaining => do
      let base ← v.clusterLba cluster
      let remaining ← writeClusterData base 0 v.sectorsPerCluster remaining
      if remaining.isEmpty then pure ()
      else
        match ← nextCluster v cluster with
        | .next next => writeDataLoop v fuel next remaining
        | .last => throw .truncatedFile

/-- `write_file_data_chain`. Its loop runs while bytes remain, so it starts only with
some and ends where they are used up. -/
def writeFileDataChain (firstCluster : ℕ) (data : List UInt8) : Fs Unit :=
  if data.isEmpty then pure ()
  else if firstCluster < 2 then throw .corruptChain
  else writeDataLoop v v.clusterCount firstCluster data

def zeroCluster (cluster : ℕ) : Fs Unit := do
  let base ← v.clusterLba cluster
  (List.range v.sectorsPerCluster).forM fun index => Fs.writeSector (base + index) Buffer.zero

/-! ## Free space -/

structure SpaceInfo where
  totalClusters : ℕ
  freeClusters : ℕ
  bytesPerCluster : ℕ
  fsInfoFreeCount : Option ℕ
  fsInfoNextFree : Option ℕ
  fsInfoMatches : Bool

def entriesPerSector : ℕ :=
  sectorSize / 4

/-- The entries of one sector in `space_info`: `count` more of them from `index` on. The first
one is that of `sectorFirst`. -/
def countFree (sector : Sector) (sectorFirst limit : ℕ) : ℕ → ℕ → ℕ → ℕ
  | 0, _, free => free
  | count + 1, index, free =>
    if limit ≤ sectorFirst + index then free
    else countFree sector sectorFirst limit count (index + 1)
      (if sector.readU32 (index * 4) % entryModulus = 0 then saturatingAdd32 free 1 else free)

/-- The loop of `space_info`. Each round reaches a larger cluster, so that it ends within
`limit` of them. -/
def spaceLoop (limit : ℕ) : ℕ → ℕ → ℕ → Fs ℕ
  | 0, _, free => pure free
  | fuel + 1, cluster, free =>
    if limit ≤ cluster then pure free
    else do
      let _ ← v.clusterLba cluster
      rejectIf (v.firstDataSector ≤ v.fatSector cluster) .corruptChain
      let sector ← Fs.readSector (v.fatSector cluster)
      let sectorFirst := (v.fatSector cluster - v.firstFatSector) * entriesPerSector % 2 ^ 32
      let index := cluster - sectorFirst
      let free := countFree sector sectorFirst limit (entriesPerSector - index) index free
      let next := saturatingAdd32 sectorFirst entriesPerSector
      rejectIf (next ≤ cluster) .corruptChain
      spaceLoop limit fuel next free

def spaceInfo : Fs SpaceInfo := do
  let limit := v.clusterCount + 2
  rejectIf (2 ^ 32 ≤ limit) .unsupportedGeometry
  let free ← spaceLoop v limit limit 2 0
  let info ← readFsInfo v
  let freeCount := (info.map FsInfo.freeCount).filter (· ≠ fsInfoUnknown)
  pure
    { totalClusters := v.clusterCount
      freeClusters := free
      bytesPerCluster := v.bytesPerCluster
      fsInfoFreeCount := freeCount
      fsInfoNextFree := (info.map FsInfo.nextFree).filter fun next =>
        next ≠ fsInfoUnknown ∧ v.isAllocatable next
      fsInfoMatches := freeCount.all (· = free) }

end WovenHat.Fat32
