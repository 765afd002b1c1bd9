import WovenHat.Model.Swap

/-! # Tasks that use swap

`allocate_page`, `read_page`, `share_page` and `release_page` of `swap.rs` as several tasks run
them, with one step for each lock of `SWAP` and for each access to the disk. The books at the
end of the state record what the calls returned; no step reads them. -/

namespace WovenHat.Swap

open Library Block

abbrev TaskId := ℕ

/-- Where a task is. In `allocate_page` the page goes to the disk sector by sector; after the
last one, or after an error, the lock is taken again; a page that is not on the disk then goes
to RAM. In `read_page` the sectors come from the disk one by one. A reading task keeps the number
of the allocation that it found. -/
inductive Phase where
  | idle
  | writing (index generation lba : ℕ) (bytes : Page) (sector : ℕ)
  | written (index generation : ℕ) (bytes : Page) (wrote : Bool)
  | fallback (bytes : Page)
  | reading (handle : Handle) (lba : ℕ) (bytes : Page) (sector : ℕ) (begun : Option ℕ)

/-- A successful `read_page`: which allocation was in the slot at its beginning and at its end,
and the bytes. -/
structure Reading where
  handle : Handle
  begun : Option ℕ
  ended : Option ℕ
  bytes : Page

/-- The handles that `allocate_page` returned with the bytes it got; which of them is in a slot;
how many allocations, shares and releases a slot has seen; and the reads. -/
structure Books where
  allocations : List (Handle × Page)
  occupant : Fin maxSwapSlots → Option ℕ
  allocated : Fin maxSwapSlots → ℕ
  shared : Fin maxSwapSlots → ℕ
  released : Fin maxSwapSlots → ℕ
  reads : List Reading

namespace Books

def new : Books where
  allocations := []
  occupant := fun _ => none
  allocated := fun _ => 0
  shared := fun _ => 0
  released := fun _ => 0
  reads := []

/-- The allocation in the slot of a handle. -/
def current (b : Books) (handle : Handle) : Option ℕ :=
  (State.slotAt handle.index).bind b.occupant

/-- One more in the count of the slot of a handle. -/
def tally (counts : Fin maxSwapSlots → ℕ) (handle : Handle) : Fin maxSwapSlots → ℕ :=
  fun i => if (i : ℕ) = handle.index then counts i + 1 else counts i

/-- `allocate_page` returns a handle. -/
def allocate (b : Books) (handle : Handle) (bytes : Page) : Books :=
  { b with
    allocations := b.allocations ++ [(handle, bytes)]
    occupant := fun i =>
      if (i : ℕ) = handle.index then some b.allocations.length else b.occupant i
    allocated := tally b.allocated handle }

/-- `share_page` succeeds. -/
def share (b : Books) (handle : Handle) : Books :=
  { b with shared := tally b.shared handle }

/-- `release_page` succeeds, and the slots are these afterwards. -/
def release (b : Books) (handle : Handle) (slots : Fin maxSwapSlots → Slot) : Books :=
  { b with
    occupant := fun i =>
      if (i : ℕ) = handle.index ∧ (slots i).occupied = false then none else b.occupant i
    released := tally b.released handle }

/-- `read_page` succeeds. -/
def read (b : Books) (handle : Handle) (begun : Option ℕ) (bytes : Page) : Books :=
  { b with reads := b.reads ++ [⟨handle, begun, b.current handle, bytes⟩] }

end Books

/-- The slots, the sectors of the disk, the tasks, and the books. -/
structure System where
  state : State
  disk : ℕ → Sector
  phase : TaskId → Phase
  books : Books

namespace System

/-- The area is configured; no page is in swap. -/
def configured (startLba sectors : ℕ) (disk : ℕ → Sector) : System where
  state := (State.new.configureDisk startLba sectors).2
  disk := disk
  phase := fun _ => .idle
  books := .new

variable (s : System) (task : TaskId)

def enter (phase : Phase) : System :=
  { s with phase := Function.update s.phase task phase }

def sectorOf (bytes : Page) (sector : ℕ) : Sector :=
  bytes.sub (sector * sectorSize) sectorSize

/-- A step of a task. A write that fails leaves anything in its sector. -/
inductive Act where
  | allocate (task : TaskId) (bytes : Page)
  | absent (task : TaskId)
  | writeSector (task : TaskId)
  | failSector (task : TaskId) (left : Sector)
  | flush (task : TaskId) (succeeds : Bool)
  | settle (task : TaskId)
  | allocateRam (task : TaskId)
  | read (task : TaskId) (handle : Handle) (bytes : Page)
  | readSector (task : TaskId) (succeeds : Bool)
  | share (handle : Handle)
  | release (handle : Handle)

/-- The first lock of `allocate_page`. -/
def beginAllocate (bytes : Page) : System :=
  match s.state.reserveDisk with
  | (none, state) => { s with state := state }.enter task (.fallback bytes)
  | (some (index, generation, lba), state) =>
    { s with state := state }.enter task (.writing index generation lba bytes 0)

/-- The second lock of `allocate_page`. -/
def settle (index generation : ℕ) (bytes : Page) (wrote : Bool) : System :=
  let cancelled :=
    { s with state := s.state.cancelReserved index generation }.enter task (.fallback bytes)
  if wrote then
    match s.state.publishReservedDisk index generation with
    | (some handle, state) =>
      { s with state := state, books := s.books.allocate handle bytes }.enter task .idle
    | (none, _) => cancelled
  else cancelled

/-- The last lock of `allocate_page`. -/
def fallBack (bytes : Page) : System :=
  match s.state.allocateRam bytes with
  | (some handle, state) =>
    { s with state := state, books := s.books.allocate handle bytes }.enter task .idle
  | (none, state) => { s with state := state }.enter task .idle

/-- The lock of `read_page`, with `read_ram` and `disk_read_lba`. -/
def beginRead (handle : Handle) (bytes : Page) : System :=
  match s.state.get handle with
  | none => s
  | some i =>
    match (s.state.slots i).backing with
    | .ram =>
      { s with
        books := s.books.read handle (s.books.current handle) (s.state.slots i).data }
    | .disk =>
      match s.state.diskLba handle.index with
      | none => s
      | some lba => s.enter task (.reading handle lba bytes 0 (s.books.current handle))

/-- A sector of `read_page_from_device`. -/
def readSector (handle : Handle) (lba : ℕ) (bytes : Page)
    (sector : ℕ) (begun : Option ℕ) : System :=
  if 2 ^ 64 ≤ lba + sector then s.enter task .idle
  else
    let bytes := bytes.write (sector * sectorSize) (s.disk (lba + sector)).toList
    if sector + 1 = sectorsPerPage then
      { s with books := s.books.read handle begun bytes }.enter task .idle
    else s.enter task (.reading handle lba bytes (sector + 1) begun)

def step : Act → Option System
  | .allocate task bytes =>
    match s.phase task with
    | .idle => some (s.beginAllocate task bytes)
    | _ => none
  | .absent task =>
    match s.phase task with
    | .writing index generation _ bytes 0 =>
      some (s.enter task (.written index generation bytes false))
    | _ => none
  | .writeSector task =>
    match s.phase task with
    | .writing index generation lba bytes sector =>
      if sectorsPerPage ≤ sector then none
      else if 2 ^ 64 ≤ lba + sector then
        some (s.enter task (.written index generation bytes false))
      else
        some ({ s with
          disk := Function.update s.disk (lba + sector) (sectorOf bytes sector) }.enter task
            (.writing index generation lba bytes (sector + 1)))
    | _ => none
  | .failSector task left =>
    match s.phase task with
    | .writing index generation lba bytes sector =>
      if sectorsPerPage ≤ sector ∨ 2 ^ 64 ≤ lba + sector then none
      else
        some ({ s with disk := Function.update s.disk (lba + sector) left }.enter task
          (.written index generation bytes false))
    | _ => none
  | .flush task succeeds =>
    match s.phase task with
    | .writing index generation _ bytes sector =>
      if sector = sectorsPerPage then
        some (s.enter task (.written index generation bytes succeeds))
      else none
    | _ => none
  | .settle task =>
    match s.phase task with
    | .written index generation bytes wrote => some (s.settle task index generation bytes wrote)
    | _ => none
  | .allocateRam task =>
    match s.phase task with
    | .fallback bytes => some (s.fallBack task bytes)
    | _ => none
  | .read task handle bytes =>
    match s.phase task with
    | .idle => some (s.beginRead task handle bytes)
    | _ => none
  | .readSector task succeeds =>
    match s.phase task with
    | .reading handle lba bytes sector begun =>
      some (if succeeds then s.readSector task handle lba bytes sector begun
        else s.enter task .idle)
    | _ => none
  | .share handle =>
    match s.state.share handle with
    | (true, state) => some { s with state := state, books := s.books.share handle }
    | (false, state) => some { s with state := state }
  | .release handle =>
    match s.state.release handle with
    | (true, state) => some { s with state := state, books := s.books.release handle state.slots }
    | (false, state) => some { s with state := state }

end System

end WovenHat.Swap
