import WovenHat.Model.Fat32.Table

/-! # Directories

The scanners of `fat32.rs` follow a directory's chain, read its sectors and look at their
sixteen slots; they differ in what they do with a slot and at the end of the chain. -/

namespace WovenHat.Fat32

open Library Block Fallible

def directoryEntrySize : ℕ := 32

def maxDirectoryClusters : ℕ := 128

structure DirectoryEntry where
  shortName : List UInt8
  firstCluster : ℕ
  size : ℕ
  attributes : UInt8
  deriving DecidableEq, Repr

/-- `attributes & DIRECTORY_ATTRIBUTE != 0`. -/
def DirectoryEntry.isDirectory (e : DirectoryEntry) : Prop :=
  e.attributes &&& 0x10 ≠ 0

instance (e : DirectoryEntry) : Decidable e.isDirectory :=
  inferInstanceAs (Decidable (_ ≠ _))

/-- `attributes & READ_ONLY_ATTRIBUTE != 0`. -/
def DirectoryEntry.isReadOnly (e : DirectoryEntry) : Prop :=
  e.attributes &&& 0x01 ≠ 0

instance (e : DirectoryEntry) : Decidable e.isReadOnly :=
  inferInstanceAs (Decidable (_ ≠ _))

/-- A long-name or volume-label slot, which every scanner skips. -/
def isLabel (attributes : UInt8) : Prop :=
  attributes = 0x0f ∨ attributes &&& 0x08 ≠ 0

instance (attributes : UInt8) : Decidable (isLabel attributes) :=
  inferInstanceAs (Decidable (_ ∨ _))

def entryAt (sector : Sector) (offset : ℕ) : DirectoryEntry where
  shortName := sector.slice offset 11
  firstCluster := sector.readU16 (offset + 20) * 65536 + sector.readU16 (offset + 26)
  size := sector.readU32 (offset + 28)
  attributes := sector.get (offset + 11)

def directoryEntryFromSector (sector : Sector) (offset : ℕ) : Except Error DirectoryEntry :=
  let e := entryAt sector offset
  if e.firstCluster < 2 ∧ (e.size ≠ 0 ∨ e.isDirectory) then .error .corruptDirectory else .ok e

/-! ## Names -/

def toFatChar (byte : UInt8) : Option UInt8 :=
  if 0x61 ≤ byte ∧ byte ≤ 0x7a then some (byte - 0x20)
  else if (0x41 ≤ byte ∧ byte ≤ 0x5a) ∨ (0x30 ≤ byte ∧ byte ≤ 0x39) ∨ byte = 0x5f ∨
      byte = 0x2d then some byte
  else none

def padded (width : ℕ) (bytes : List UInt8) : List UInt8 :=
  bytes ++ List.replicate (width - bytes.length) 0x20

def encodeShortName (name : List UInt8) : Option (List UInt8) :=
  if name = [] ∨ 12 < name.length then none
  else
    let base := name.takeWhile (· != 0x2e)
    let ext := (name.dropWhile (· != 0x2e)).tail
    if base = [] ∨ 8 < base.length ∨ 3 < ext.length ∨ 0x2e ∈ ext then none
    else do
      let base ← base.mapM toFatChar
      let ext ← ext.mapM toFatChar
      pure (padded 8 base ++ padded 3 ext)

def toLower (byte : UInt8) : Option UInt8 :=
  if 0x41 ≤ byte ∧ byte ≤ 0x5a then some (byte + 0x20)
  else if (0x61 ≤ byte ∧ byte ≤ 0x7a) ∨ (0x30 ≤ byte ∧ byte ≤ 0x39) ∨ byte = 0x5f ∨
      byte = 0x2d then some byte
  else none

/-- The name under which `storage.rs` imports a directory entry. -/
def shortNameToStr (shortName : List UInt8) : Option (List UInt8) := do
  let base ← ((shortName.take 8).takeWhile (· != 0x20)).mapM toLower
  if base = [] then none
  else if (shortName.drop 8).any (· != 0x20) then
    let ext ← ((shortName.drop 8).takeWhile (· != 0x20)).mapM toLower
    pure (base ++ 0x2e :: ext)
  else pure base

/-! ## Walking a directory -/

/-- What a scanner does after a slot. -/
inductive Step (σ ρ : Type) where
  | next (state : σ)
  | stop (result : ρ)

/-- What a scanner does with the slot at `offset` of the sector at `lba`. -/
abbrev SlotStep (σ ρ : Type) := σ → ℕ → Sector → ℕ → Except Error (Step σ ρ)

variable {σ ρ : Type}

/-- The slots of one sector, `count` of them from `index` on. -/
def scanSector (step : SlotStep σ ρ) (lba : ℕ) (sector : Sector) :
    ℕ → ℕ → σ → Except Error (Step σ ρ)
  | _, 0, s => .ok (.next s)
  | index, count + 1, s =>
    match step s lba sector (index * directoryEntrySize) with
    | .error e => .error e
    | .ok (.stop r) => .ok (.stop r)
    | .ok (.next s) => scanSector step lba sector (index + 1) count s

/-- The sectors of one cluster, `count` of them from `lba` on. -/
def scanCluster (step : SlotStep σ ρ) : ℕ → ℕ → σ → Fs (Step σ ρ)
  | _, 0, s => pure (.next s)
  | lba, count + 1, s => do
      let sector ← Fs.readSector lba
      match ← Fallible.ofExcept (scanSector step lba sector 0 16 s) with
      | .stop r => pure (.stop r)
      | .next s => scanCluster step (lba + 1) count s

/-- The loop that all scanners share, with `fuel` more clusters allowed. `finish` is what
a scanner does after the last cluster of the chain. -/
def walkDirectory (v : Volume) (step : SlotStep σ ρ) (finish : σ → ℕ → Fs ρ) :
    ℕ → List ℕ → ℕ → σ → Fs ρ
  | 0, _, _, _ => throw .chainTooLong
  | fuel + 1, visited, cluster, s => do
      rejectIf (cluster ∈ visited) .chainLoop
      let base ← v.clusterLba cluster
      match ← scanCluster step base v.sectorsPerCluster s with
      | .stop r => pure r
      | .next s =>
        match ← nextCluster v cluster with
        | .next next => walkDirectory v step finish fuel (cluster :: visited) next s
        | .last => finish s cluster

variable (v : Volume)

def scanDirectory (step : SlotStep σ ρ) (finish : σ → ℕ → Fs ρ) (dirCluster : ℕ) (s : σ) : Fs ρ :=
  walkDirectory v step finish maxDirectoryClusters [] dirCluster s

/-! ## Scanners -/

/-- A slot of `scan_directory_sector`. -/
def findStep (short : List UInt8) : SlotStep Unit DirectoryEntry := fun _ _ sector offset =>
  let e := entryAt sector offset
  if sector.get offset = 0 then .error .notFound
  else if sector.get offset = 0xe5 ∨ isLabel e.attributes then .ok (.next ())
  else if e.shortName ≠ short then .ok (.next ())
  else if e.firstCluster < 2 ∧ e.size ≠ 0 then .error .corruptDirectory
  else .ok (.stop e)

def findInDirectory (dirCluster : ℕ) (short : List UInt8) : Fs DirectoryEntry :=
  scanDirectory v (findStep short) (fun _ _ => throw .notFound) dirCluster ()

/-- A slot of `for_each_directory_entry`. -/
def visitStep (visitor : σ → DirectoryEntry → Except Error σ) : SlotStep σ σ :=
  fun s _ sector offset =>
    if sector.get offset = 0 then .ok (.stop s)
    else if sector.get offset = 0xe5 ∨ isLabel (entryAt sector offset).attributes then
      .ok (.next s)
    else do
      let e ← directoryEntryFromSector sector offset
      let s ← visitor s e
      pure (.next s)

/-- `for_each_directory_entry`. The visitor's own state is returned. -/
def forEachDirectoryEntry (dirCluster : ℕ)
    (visitor : σ → DirectoryEntry → Except Error σ) (s : σ) : Fs σ :=
  scanDirectory v (visitStep visitor) (fun s _ => pure s) dirCluster s

structure DirectorySlot where
  lba : ℕ
  offset : ℕ
  entry : DirectoryEntry
  raw : List UInt8
  deriving DecidableEq

/-- A slot of `find_existing_directory_slot`. -/
def existingStep (short : List UInt8) : SlotStep Unit DirectorySlot := fun _ lba sector offset =>
  if sector.get offset = 0 then .error .notFound
  else if sector.get offset = 0xe5 ∨ isLabel (entryAt sector offset).attributes then
    .ok (.next ())
  else if (entryAt sector offset).shortName ≠ short then .ok (.next ())
  else do
    let entry ← directoryEntryFromSector sector offset
    pure (.stop ⟨lba, offset, entry, sector.slice offset directoryEntrySize⟩)

def findExistingDirectorySlot (dirCluster : ℕ) (short : List UInt8) : Fs DirectorySlot :=
  scanDirectory v (existingStep short) (fun _ _ => throw .notFound) dirCluster ()

def dotName : List UInt8 := padded 11 [0x2e]

def dotdotName : List UInt8 := padded 11 [0x2e, 0x2e]

/-- A slot of `directory_is_empty`. -/
def emptyStep : SlotStep Unit Bool := fun _ _ sector offset =>
  if sector.get offset = 0 then .ok (.stop true)
  else if sector.get offset = 0xe5 ∨ isLabel (entryAt sector offset).attributes then
    .ok (.next ())
  else if (entryAt sector offset).shortName = dotName ∨
      (entryAt sector offset).shortName = dotdotName then .ok (.next ())
  else .ok (.stop false)

def directoryIsEmpty (dirCluster : ℕ) : Fs Bool :=
  scanDirectory v emptyStep (fun _ _ => pure true) dirCluster ()

/-! ## Free slots -/

structure DirectoryExtension where
  parentCluster : ℕ
  cluster : ℕ

structure DirectorySlotReservation where
  lba : ℕ
  offset : ℕ
  existing : Option DirectoryEntry
  extension : Option DirectoryExtension

def extendDirectoryChain (lastCluster : ℕ) : Fs DirectorySlotReservation := do
  let newCluster ← allocateCluster v
  (zeroCluster v newCluster).onError (freeClusterChain v newCluster)
  (writeFatEntry v lastCluster newCluster).onError (freeClusterChain v newCluster)
  let lba ← v.clusterLba newCluster
  pure ⟨lba, 0, none, some ⟨lastCluster, newCluster⟩⟩

def rollbackDirectoryExtension (extension : DirectoryExtension) : Fs Unit := do
  writeFatEntry v extension.parentCluster fat32EndMin
  freeClusterChain v extension.cluster

def rollbackReservedSlot (slot : DirectorySlotReservation) : Fs Unit :=
  match slot.extension with
  | none => pure ()
  | some extension => (rollbackDirectoryExtension v extension).ignore

/-- A slot of `find_directory_slot`; the state is the first deleted slot seen. -/
def slotStep (short : List UInt8) :
    SlotStep (Option (ℕ × ℕ)) DirectorySlotReservation := fun deleted lba sector offset =>
  let e := entryAt sector offset
  if sector.get offset = 0 then
    let place := deleted.getD (lba, offset)
    .ok (.stop ⟨place.1, place.2, none, none⟩)
  else if sector.get offset = 0xe5 then .ok (.next (some (deleted.getD (lba, offset))))
  else if isLabel e.attributes then .ok (.next deleted)
  else if e.shortName = short then .ok (.stop ⟨lba, offset, some e, none⟩)
  else .ok (.next deleted)

def findDirectorySlot (dirCluster : ℕ) (short : List UInt8) : Fs DirectorySlotReservation :=
  scanDirectory v (slotStep short)
    (fun deleted cluster =>
      match deleted with
      | some place => pure ⟨place.1, place.2, none, none⟩
      | none => extendDirectoryChain v cluster)
    dirCluster none

/-! ## Changing a slot -/

def modifySector (lba : ℕ) (f : Sector → Sector) : Fs Unit := do
  let sector ← Fs.readSector lba
  Fs.writeSector lba (f sector)

def markDirectoryEntryDeleted (lba offset : ℕ) : Fs Unit :=
  modifySector lba (·.set offset 0xe5)

def writeShortName (lba offset : ℕ) (short : List UInt8) : Fs Unit :=
  modifySector lba (·.write offset short)

def writeRawDirectorySlot (lba offset : ℕ) (raw : List UInt8) : Fs Unit :=
  modifySector lba (·.write offset raw)

def putCluster (sector : Sector) (offset cluster : ℕ) : Sector :=
  (sector.writeU16 (offset + 20) (cluster / 65536)).writeU16 (offset + 26) cluster

/-- The sector after `write_directory_entry`. -/
def putEntry (sector : Sector) (offset : ℕ) (e : DirectoryEntry) : Sector :=
  let cleared := sector.write offset (List.replicate directoryEntrySize 0)
  let named := (cleared.write offset e.shortName).set (offset + 11) e.attributes
  (putCluster named offset e.firstCluster).writeU32 (offset + 28) e.size

def writeDirectoryEntry (lba offset : ℕ) (e : DirectoryEntry) : Fs Unit :=
  modifySector lba (putEntry · offset e)

/-- The slots of `update_dotdot`, `count` of them from `index` on: the offset of the `..`
entry before the end marker. -/
def dotdotOffset (sector : Sector) : ℕ → ℕ → Option ℕ
  | _, 0 => none
  | index, count + 1 =>
    let offset := index * directoryEntrySize
    if sector.get offset = 0 then none
    else if sector.get offset ≠ 0xe5 ∧ sector.slice offset 11 = dotdotName then some offset
    else dotdotOffset sector (index + 1) count

def updateDotdot (dirCluster parentCluster : ℕ) : Fs Unit := do
  let base ← v.clusterLba dirCluster
  let sector ← Fs.readSector base
  match dotdotOffset sector 0 16 with
  | some offset => Fs.writeSector base (putCluster sector offset parentCluster)
  | none => throw .corruptDirectory

end WovenHat.Fat32
