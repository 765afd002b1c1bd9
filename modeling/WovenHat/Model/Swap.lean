import WovenHat.Model.Partition
import WovenHat.Model.Fat32.Volume

/-! # Swap

The slots of `swap.rs`, the disk area behind them, and the functions of `storage.rs` that
choose this area when a volume is mounted. -/

namespace WovenHat.Swap

open Library Block Fat32 Storage

def maxSwapSlots : ℕ := 32

def pageSize : ℕ := 4096

def sectorsPerPage : ℕ := pageSize / sectorSize

abbrev Page := Buffer pageSize

structure Handle where
  index : ℕ
  generation : ℕ
  deriving DecidableEq, Repr

inductive Backing where
  | ram
  | disk
  deriving DecidableEq, Repr

structure Slot where
  data : Page
  refcount : ℕ
  generation : ℕ
  occupied : Bool
  backing : Backing

def Slot.empty : Slot :=
  ⟨Buffer.zero, 0, 0, false, .ram⟩

def Slot.clear (s : Slot) : Slot :=
  { Slot.empty with generation := s.generation }

structure DiskBacking where
  startLba : ℕ
  slots : ℕ
  deriving DecidableEq, Repr

structure State where
  slots : Fin maxSwapSlots → Slot
  disk : Option DiskBacking

namespace State

def new : State :=
  ⟨fun _ => .empty, none⟩

variable (st : State)

def used : ℕ :=
  (List.finRange maxSwapSlots).countP fun i => (st.slots i).occupied && 0 < (st.slots i).refcount

def configureDisk (startLba sectors : ℕ) : Option ℕ × State :=
  if st.used ≠ 0 ∨ sectors < sectorsPerPage then (none, st)
  else
    let slots := min maxSwapSlots (sectors / sectorsPerPage)
    if slots = 0 then (none, st)
    else (some slots, { st with disk := some ⟨startLba, slots⟩ })

def freeSlot : Option (Fin maxSwapSlots) :=
  (List.finRange maxSwapSlots).find? fun i => !(st.slots i).occupied

def diskLba (index : ℕ) : Option ℕ := do
  let disk ← st.disk
  if disk.slots ≤ index then none
  else if 2 ^ 64 ≤ index * sectorsPerPage then none
  else if 2 ^ 64 ≤ disk.startLba + index * sectorsPerPage then none
  else some (disk.startLba + index * sectorsPerPage)

variable (index : Fin maxSwapSlots)

def nextGeneration : ℕ :=
  let generation := ((st.slots index).generation + 1) % 2 ^ 16
  if generation = 0 then 1 else generation

def setSlot (slot : Slot) : State :=
  { st with slots := Function.update st.slots index slot }

def occupy (backing : Backing) (bytes : Option Page) : Handle × State :=
  let generation := st.nextGeneration index
  (⟨index, generation⟩, st.setSlot index ⟨bytes.getD Buffer.zero, 1, generation, true, backing⟩)

def reserveDisk : Option (ℕ × ℕ × ℕ) × State :=
  match st.freeSlot with
  | none => (none, st)
  | some index =>
    match st.diskLba index with
    | none => (none, st)
    | some lba =>
      let generation := st.nextGeneration index
      (some (index, generation, lba),
        st.setSlot index { Slot.empty with generation, occupied := true, backing := .disk })

def slotAt (index : ℕ) : Option (Fin maxSwapSlots) :=
  if h : index < maxSwapSlots then some ⟨index, h⟩ else none

/-- A slot that is reserved and not published yet. -/
def isReserved (slot : Slot) (generation : ℕ) : Prop :=
  slot.occupied = true ∧ slot.refcount = 0 ∧ slot.generation = generation

instance (slot : Slot) (generation : ℕ) : Decidable (isReserved slot generation) :=
  inferInstanceAs (Decidable (_ ∧ _ ∧ _))

def publishReservedDisk (index generation : ℕ) : Option Handle × State :=
  match slotAt index with
  | none => (none, st)
  | some i =>
    if isReserved (st.slots i) generation then
      (some ⟨index, generation⟩, st.setSlot i { st.slots i with refcount := 1, backing := .disk })
    else (none, st)

def cancelReserved (index generation : ℕ) : State :=
  match slotAt index with
  | none => st
  | some i =>
    if isReserved (st.slots i) generation then st.setSlot i (st.slots i).clear else st

def allocateRam (bytes : Page) : Option Handle × State :=
  match st.freeSlot with
  | none => (none, st)
  | some index =>
    let (handle, st) := st.occupy index .ram (some bytes)
    (some handle, st)

/-- `State::get` and `State::get_mut`: the slot of a valid handle. -/
def get (handle : Handle) : Option (Fin maxSwapSlots) := do
  let i ← slotAt handle.index
  if (st.slots i).occupied = true ∧ 0 < (st.slots i).refcount ∧
      (st.slots i).generation = handle.generation then some i
  else none

def share (handle : Handle) : Bool × State :=
  match st.get handle with
  | none => (false, st)
  | some i =>
    if (st.slots i).refcount + 1 < 2 ^ 16 then
      (true, st.setSlot i { st.slots i with refcount := (st.slots i).refcount + 1 })
    else (false, st)

def release (handle : Handle) : Bool × State :=
  match st.get handle with
  | none => (false, st)
  | some i =>
    let slot := { st.slots i with refcount := (st.slots i).refcount - 1 }
    (true, st.setSlot i (if slot.refcount = 0 then slot.clear else slot))

end State

/-- The sectors of a page in `write_page_to_device`, `count` of them from `sector` on. -/
def writePageLoop (startLba : ℕ) (bytes : Page) : ℕ → ℕ → Fs Unit
  | _, 0 => pure ()
  | sector, count + 1 =>
    if 2 ^ 64 ≤ startLba + sector then throw (.block .outOfBounds)
    else do
      Fs.writeSector (startLba + sector) (bytes.sub (sector * sectorSize) sectorSize)
      writePageLoop startLba bytes (sector + 1) count

def writePageToDevice (startLba : ℕ) (bytes : Page) : Fs Unit :=
  writePageLoop startLba bytes 0 sectorsPerPage

/-! ## The steps of a run -/

/-- What is done under one lock of `SWAP` by `allocate_page`, `share_page` and
`release_page`. The page is written between `reserve` and `publish` or `cancel`. -/
inductive Step where
  | reserve
  | publish (index generation : ℕ)
  | cancel (index generation : ℕ)
  | allocateRam (bytes : Page)
  | share (handle : Handle)
  | release (handle : Handle)

def Step.apply (st : State) : Step → State
  | .reserve => st.reserveDisk.2
  | .publish index generation => (st.publishReservedDisk index generation).2
  | .cancel index generation => st.cancelReserved index generation
  | .allocateRam bytes => (st.allocateRam bytes).2
  | .share handle => (st.share handle).2
  | .release handle => (st.release handle).2

def State.after (st : State) (steps : List Step) : State :=
  steps.foldl Step.apply st

/-! ## The area -/

/-- `configure_swap_area`. The source drops the number of slots. -/
def configureSwapArea (startLba limitLba : ℕ) (st : State) : Option ℕ × State :=
  if limitLba ≤ startLba then (none, st) else st.configureDisk startLba (limitLba - startLba)

def configureDirectSwap (st : State) : Fs (Option ℕ × State) := do
  match ← mount.attempt with
  | .error _ => pure (none, st)
  | .ok volume => do
      let count ← Fs.sectorCount
      pure (configureSwapArea volume.totalSectors count st)

/-- `configure_partition_swap`, on a disk with `count` sectors. -/
def configurePartitionSwap (count : ℕ) (partition : Partition) (st : State) :
    Fs (Option ℕ × State) :=
  match PartitionDevice.new count partition with
  | .error _ => pure (none, st)
  | .ok view => do
      match ← (view.through mount).attempt with
      | .error _ => pure (none, st)
      | .ok volume =>
        if 2 ^ 64 ≤ partition.startLba + volume.totalSectors then pure (none, st)
        else if 2 ^ 64 ≤ partition.startLba + partition.sectors then pure (none, st)
        else pure (configureSwapArea (partition.startLba + volume.totalSectors)
          (partition.startLba + partition.sectors) st)

end WovenHat.Swap
