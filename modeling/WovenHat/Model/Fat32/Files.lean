import WovenHat.Model.Fat32.Directory

/-! # Files and paths

The operations that `storage.rs` performs on a mounted volume. Paths are byte strings. -/

namespace WovenHat.Fat32

open Library Block Fallible

/-! ## Reading -/

/-- The sectors of one cluster in `read_file_at`, `count` of them from `lba` on: the
position and the bytes copied so far. -/
def readClusterData (offset target : ℕ) : ℕ → ℕ → ℕ → List UInt8 → Fs (ℕ × List UInt8)
  | _, 0, position, copied => pure (position, copied)
  | lba, count + 1, position, copied => do
      if copied.length = target then pure (position, copied)
      else if offset < position + sectorSize then
        let sector ← Fs.readSector lba
        let start := offset - position
        let bytes := sector.slice start (min (sectorSize - start) (target - copied.length))
        readClusterData offset target (lba + 1) count (position + sectorSize) (copied ++ bytes)
      else readClusterData offset target (lba + 1) count (position + sectorSize) copied

/-- The loop of `read_file_at`, with `fuel` more clusters allowed. -/
def readLoop (v : Volume) (offset target : ℕ) :
    ℕ → ℕ → ChainCycleGuard → ℕ → List UInt8 → Fs (List UInt8)
  | 0, _, _, _, _ => throw .chainTooLong
  | fuel + 1, cluster, guard, position, copied => do
      let base ← v.clusterLba cluster
      let (position, copied) ←
        readClusterData offset target base v.sectorsPerCluster position copied
      if copied.length = target then pure copied
      else
        match ← nextCluster v cluster with
        | .next next =>
          let guard ← guard.advance v
          readLoop v offset target fuel next guard position copied
        | .last => throw .truncatedFile

/-- `read_file_at` into a buffer of `length` bytes: the bytes copied to it. -/
def readFileAt (v : Volume) (entry : DirectoryEntry) (offset length : ℕ) : Fs (List UInt8) :=
  let target := min (entry.size - offset) length
  if target = 0 then pure []
  else readLoop v offset target v.clusterCount entry.firstCluster (.new entry.firstCluster) 0 []

/-! ## Creating -/

/-- `?` on an option, `ok_or(error)?`. -/
def okOr {α : Type} (x : Option α) (error : Error) : Fs α :=
  match x with
  | some a => pure a
  | none => throw error

def rollbackCreation (v : Volume) (firstCluster : ℕ) (slot : DirectorySlotReservation) :
    Fs Unit := do
  (freeClusterChain v firstCluster).ignore
  rollbackReservedSlot v slot

/-- The first cluster of the file that is overwritten, or zero. -/
def checkExisting (v : Volume) : Option DirectoryEntry → Fs ℕ
  | none => pure 0
  | some entry => do
      rejectIf entry.isDirectory .writeFailed
      runIf (2 ≤ entry.firstCluster) (validateClusterChain v entry.firstCluster)
      pure entry.firstCluster

def createFileInDirectory (v : Volume) (dirCluster : ℕ) (name data : List UInt8) : Fs Unit := do
  let short ← okOr (encodeShortName name) .nameTooLong
  rejectIf (2 ^ 32 ≤ data.length) .noSpace
  let slot ← findDirectorySlot v dirCluster short
  let existingFirst ← checkExisting v slot.existing
  let neededClusters := (data.length + v.bytesPerCluster - 1) / v.bytesPerCluster
  let firstCluster ← (allocateFileChain v neededClusters).onError (rollbackReservedSlot v slot)
  (writeFileDataChain v firstCluster data).onError (rollbackCreation v firstCluster slot)
  (writeDirectoryEntry slot.lba slot.offset ⟨short, firstCluster, data.length, 0x20⟩).onError
    (rollbackCreation v firstCluster slot)
  -- a new file has no old chain, and an empty one has none to free
  runIf (2 ≤ existingFirst) (freeClusterChain v existingFirst)

def newDirectorySector (cluster parentCluster : ℕ) : Sector :=
  putEntry (putEntry Buffer.zero 0 ⟨dotName, cluster, 0, 0x10⟩) 32
    ⟨dotdotName, parentCluster, 0, 0x10⟩

def createDirectoryIn (v : Volume) (parentCluster : ℕ) (name : List UInt8) : Fs ℕ := do
  let short ← okOr (encodeShortName name) .nameTooLong
  let slot ← findDirectorySlot v parentCluster short
  match slot.existing with
  | some entry =>
    if entry.isDirectory ∧ 2 ≤ entry.firstCluster then pure entry.firstCluster
    else throw .writeFailed
  | none => do
      let cluster ← (allocateCluster v).onError (rollbackReservedSlot v slot)
      (zeroCluster v cluster).onError (rollbackCreation v cluster slot)
      let base ← (v.clusterLba cluster).onError (rollbackCreation v cluster slot)
      (Fs.writeSector base (newDirectorySector cluster parentCluster)).onError
        (rollbackCreation v cluster slot)
      (writeDirectoryEntry slot.lba slot.offset ⟨short, cluster, 0, 0x10⟩).onError
        (rollbackCreation v cluster slot)
      pure cluster

/-! ## Paths -/

def trimMatches (path : List UInt8) : List UInt8 :=
  (path.dropWhile (· == 0x2f)).rdropWhile (· == 0x2f)

/-- The components of a path, without empty ones and `.`. More than `limit` of them, or
`..`, is an error. -/
def collectParts (limit : ℕ) (error : Error) :
    List (List UInt8) → List (List UInt8) → Except Error (List (List UInt8))
  | [], parts => .ok parts
  | component :: rest, parts =>
    if component = [] ∨ component = [0x2e] then collectParts limit error rest parts
    else if component = [0x2e, 0x2e] ∨ parts.length = limit then .error error
    else collectParts limit error rest (parts ++ [component])

/-- The loop of `resolve_parent_cluster`. -/
def resolveParents (v : Volume) (createMissing : Bool) : ℕ → List (List UInt8) → Fs ℕ
  | cluster, [] => pure cluster
  | cluster, component :: rest => do
      let short ← okOr (encodeShortName component) .nameTooLong
      match ← (findInDirectory v cluster short).attempt with
      | .ok entry =>
        if ¬entry.isDirectory ∨ entry.firstCluster < 2 then throw .notFound
        else resolveParents v createMissing entry.firstCluster rest
      | .error e =>
        if e = .notFound ∧ createMissing then do
          let created ← createDirectoryIn v cluster component
          resolveParents v createMissing created rest
        else throw e

/-- `resolve_parent_cluster`: the parent and the last component. -/
def resolveParentCluster (v : Volume) (path : List UInt8) (createMissing : Bool) :
    Fs (ℕ × List UInt8) := do
  let parts ← Fallible.ofExcept (collectParts 16 .nameTooLong ((trimMatches path).splitOn 0x2f) [])
  match parts.getLast? with
  | none => throw .nameTooLong
  | some leaf => do
      let _ ← okOr (encodeShortName leaf) .nameTooLong
      let cluster ← resolveParents v createMissing v.rootCluster parts.dropLast
      pure (cluster, leaf)

/-- The loop of `mkdir_path`. -/
def mkdirParts (v : Volume) : ℕ → List (List UInt8) → Fs Unit
  | _, [] => pure ()
  | cluster, component :: rest => do
      if component = [] ∨ component = [0x2e] then mkdirParts v cluster rest
      else if component = [0x2e, 0x2e] then throw .nameTooLong
      else do
        let short ← okOr (encodeShortName component) .nameTooLong
        match ← (findInDirectory v cluster short).attempt with
        | .ok entry =>
          if entry.isDirectory ∧ 2 ≤ entry.firstCluster then
            mkdirParts v entry.firstCluster rest
          else throw .writeFailed
        | .error e =>
          if e = .notFound then do
            let created ← createDirectoryIn v cluster component
            mkdirParts v created rest
          else throw e

def mkdirPath (v : Volume) (path : List UInt8) : Fs Unit :=
  mkdirParts v v.rootCluster ((trimMatches path).splitOn 0x2f)

def createPathFile (v : Volume) (path data : List UInt8) : Fs Unit := do
  let (parent, leaf) ← resolveParentCluster v path true
  createFileInDirectory v parent leaf data

/-- A directory must be empty and chains must be sound before an entry is deleted. -/
def checkDeletable (v : Volume) (entry : DirectoryEntry) : Fs Unit :=
  if entry.isDirectory then do
    let empty ← directoryIsEmpty v entry.firstCluster
    rejectIf (empty = false) .directoryNotEmpty
    validateClusterChain v entry.firstCluster
  else runIf (2 ≤ entry.firstCluster) (validateClusterChain v entry.firstCluster)

def deletePath (v : Volume) (path : List UInt8) : Fs Unit := do
  rejectIf (trimMatches path = []) .invalidPath
  let (parent, leaf) ← resolveParentCluster v path false
  let short ← okOr (encodeShortName leaf) .nameTooLong
  let slot ← findExistingDirectorySlot v parent short
  rejectIf slot.entry.isReadOnly .readOnly
  checkDeletable v slot.entry
  markDirectoryEntryDeleted slot.lba slot.offset
  runIf (2 ≤ slot.entry.firstCluster) (freeClusterChain v slot.entry.firstCluster)

def pathIsDescendant (parent child : List UInt8) : Prop :=
  let parent := trimMatches parent
  let child := trimMatches child
  parent ≠ [] ∧ parent.length < child.length ∧ parent <+: child ∧ child.getD parent.length 0 = 0x2f

instance (parent child : List UInt8) : Decidable (pathIsDescendant parent child) := by
  unfold pathIsDescendant
  infer_instance

/-- The end of `rename_path`, for two parents: publish the entry in the new directory,
then delete the old one. -/
def moveEntry (v : Volume) (oldParent newParent : ℕ) (oldSlot : DirectorySlot)
    (newShort : List UInt8) : Fs Unit := do
  let newSlot ← findDirectorySlot v newParent newShort
  rejectIf newSlot.existing.isSome .alreadyExists
  (writeRawDirectorySlot newSlot.lba newSlot.offset (newShort ++ oldSlot.raw.drop 11)).onError
    (rollbackReservedSlot v newSlot)
  runIf oldSlot.entry.isDirectory <|
    (updateDotdot v oldSlot.entry.firstCluster newParent).onError do
      (markDirectoryEntryDeleted newSlot.lba newSlot.offset).ignore
      rollbackReservedSlot v newSlot
  (markDirectoryEntryDeleted oldSlot.lba oldSlot.offset).onError do
    (markDirectoryEntryDeleted newSlot.lba newSlot.offset).ignore
    runIf oldSlot.entry.isDirectory (updateDotdot v oldSlot.entry.firstCluster oldParent).ignore
    rollbackReservedSlot v newSlot

def renamePath (v : Volume) (old new : List UInt8) : Fs Unit := do
  let oldPath := trimMatches old
  let newPath := trimMatches new
  rejectIf (oldPath = [] ∨ newPath = []) .invalidPath
  let (oldParent, oldLeaf) ← resolveParentCluster v oldPath false
  let oldShort ← okOr (encodeShortName oldLeaf) .nameTooLong
  let oldSlot ← findExistingDirectorySlot v oldParent oldShort
  rejectIf oldSlot.entry.isReadOnly .readOnly
  rejectIf (oldSlot.entry.isDirectory ∧ pathIsDescendant oldPath newPath) .invalidPath
  rejectIf (oldSlot.entry.isDirectory ∧ oldSlot.entry.firstCluster < 2) .corruptDirectory
  let (newParent, newLeaf) ← resolveParentCluster v newPath false
  let newShort ← okOr (encodeShortName newLeaf) .nameTooLong
  if oldParent = newParent ∧ oldShort = newShort then pure ()
  else
    match ← (findExistingDirectorySlot v newParent newShort).attempt with
    | .ok _ => throw .alreadyExists
    | .error e =>
      if e ≠ .notFound then throw e
      else if oldParent = newParent then writeShortName oldSlot.lba oldSlot.offset newShort
      else moveEntry v oldParent newParent oldSlot newShort

/-! ## Sequences -/

/-- A call that may change the volume. -/
inductive Mutation where
  | createFileInDirectory (dirCluster : ℕ) (name data : List UInt8)
  | createPathFile (path data : List UInt8)
  | mkdirPath (path : List UInt8)
  | deletePath (path : List UInt8)
  | renamePath (old new : List UInt8)

def Mutation.run (v : Volume) : Mutation → Fs Unit
  | .createFileInDirectory dirCluster name data => Fat32.createFileInDirectory v dirCluster name data
  | .createPathFile path data => Fat32.createPathFile v path data
  | .mkdirPath path => Fat32.mkdirPath v path
  | .deletePath path => Fat32.deletePath v path
  | .renamePath old new => Fat32.renamePath v old new

/-- One call after the other; a failed one does not stop the sequence. -/
def mutate (v : Volume) (ms : List Mutation) : Fs Unit :=
  ms.forM fun m => (m.run v).ignore

end WovenHat.Fat32
